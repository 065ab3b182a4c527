import Sky.Model.Ring

/-! # The ring replays the stream -/

namespace Sky.Process

open Circular

/-! ## Growing -/

theorem le_doubleTo (fuel : ℕ) {size need : ℕ} (hpos : 0 < size) (hfuel : need ≤ size + fuel) :
    need ≤ doubleTo fuel size need := by
  induction fuel generalizing size with
  | zero => exact hfuel
  | succ fuel ih =>
      rw [doubleTo]
      split
      · exact ih (by omega) (by omega)
      · omega

/-- The ring has the stream from `start` on, each byte in its place. -/
structure Stores (r : OutRing) (bytes : List UInt8) : Prop where
  stop : r.stop = bytes.length
  start : r.start ≤ bytes.length
  window : bytes.length ≤ r.start + r.limit
  fits : bytes.length ≤ r.start + r.buf.length
  small : r.buf.length ≤ r.limit
  holds : Holds r.buf bytes r.start

namespace OutRing

/-- Growing makes room and moves no byte from its place. -/
theorem grow_spec {r : OutRing} {bytes : List UInt8} (h : Stores r bytes) {need : ℕ}
    (hneed : need ≤ r.limit) (hwindow : bytes.length ≤ r.start + need) :
    ∃ buf, r.grow need = { r with buf := buf } ∧ need ≤ buf.length ∧ buf.length ≤ r.limit ∧
      Holds buf bytes r.start := by
  unfold grow
  split
  · next hle => exact ⟨r.buf, rfl, hle, h.small, h.holds⟩
  · next hgt =>
      simp only
      set size := (if r.buf.length * 2 < 4096 then 4096 else r.buf.length * 2) with hsize
      have hpos : 0 < size := by
        rw [hsize]
        split <;> omega
      have hdouble := le_doubleTo need hpos (Nat.le_add_left need size)
      set grown := (if r.limit < doubleTo need size need then r.limit
        else doubleTo need size need) with hgrown
      have hroom : need ≤ grown := by
        rw [hgrown]
        split <;> omega
      have hlimit : grown ≤ r.limit := by
        rw [hgrown]
        split <;> omega
      have hkept : r.stop - r.start ≤ grown := by
        rw [h.stop]
        exact (Nat.sub_le_iff_le_add'.mpr hwindow).trans hroom
      split
      · refine ⟨_, rfl, ?_, ?_, ?_⟩
        · rw [length_relayout, List.length_replicate]
          exact hroom
        · rw [length_relayout, List.length_replicate]
          exact hlimit
        · intro o ho hlt
          rw [length_relayout]
          have hbefore := h.start
          have hlast := h.stop
          refine h.holds.relayout 0 (by omega) ?_ o ho (by omega)
          rw [List.length_replicate]
          exact hkept
      · refine ⟨_, rfl, ?_, ?_, fun o ho hlt => ?_⟩
        · rw [List.length_replicate]
          exact hroom
        · rw [List.length_replicate]
          exact hlimit
        · have hfits := h.fits
          omega

end OutRing

/-! ## Writing -/

/-- Copying in puts the bytes at their places, whatever the wrap. -/
theorem copyIn_spec {fuel : ℕ} {buf bytes p : List UInt8} {lo : ℕ} (hfuel : p.length ≤ fuel)
    (hpos : 0 < buf.length) (hholds : Holds buf bytes lo) :
    (copyIn fuel buf bytes.length p).1.length = buf.length ∧
      (copyIn fuel buf bytes.length p).2 = (bytes ++ p).length ∧
      Holds (copyIn fuel buf bytes.length p).1 (bytes ++ p)
        (max lo ((bytes ++ p).length - buf.length)) := by
  induction fuel generalizing buf bytes p lo with
  | zero =>
      obtain rfl := List.length_eq_zero_iff.mp (Nat.le_zero.mp hfuel)
      rw [List.append_nil]
      exact ⟨rfl, rfl, hholds.mono (Nat.le_max_left _ _)⟩
  | succ fuel ih =>
      cases p with
      | nil =>
          rw [List.append_nil]
          exact ⟨rfl, rfl, hholds.mono (Nat.le_max_left _ _)⟩
      | cons b p =>
          rw [copyIn]
          · set pos := bytes.length % buf.length with hplace
            have hlt : pos < buf.length := Nat.mod_lt _ hpos
            set n := min (buf.length - pos) (b :: p).length with hn
            have hone : 1 ≤ n := by
              rw [hn, List.length_cons]
              omega
            have htake : ((b :: p).take n).length = n := by
              rw [List.length_take]
              omega
            have hfit : pos + ((b :: p).take n).length ≤ buf.length := by omega
            have hput := hholds.put hfit
            have hlen := length_overwrite hfit
            have hnext : bytes.length + n = (bytes ++ (b :: p).take n).length := by
              rw [List.length_append, htake]
            have hless : ((b :: p).drop n).length ≤ fuel := by
              rw [List.length_drop]
              omega
            have hrest := ih hless (hlen.symm ▸ hpos) hput
            rw [List.append_assoc, List.take_append_drop, hlen] at hrest
            rw [hnext]
            refine ⟨hrest.1, hrest.2.1, hrest.2.2.mono ?_⟩
            rw [List.length_append, List.length_append, htake]
            omega
          · simp

/-- Appending extends the stream and moves `start` only over what does not fit. -/
theorem OutRing.append_spec {r : OutRing} {bytes p : List UInt8} (h : Stores r bytes)
    (hne : p ≠ []) (hp : p.length ≤ r.limit) :
    Stores (r.append p) (bytes ++ p) ∧ (r.append p).limit = r.limit ∧
      (r.append p).eof = r.eof ∧
      (r.append p).start = max r.start ((bytes ++ p).length - r.limit) := by
  have hpos : 0 < p.length := List.length_pos_iff.mpr hne
  obtain ⟨hstop, hstart, hwindow, hfits, hsmall, hholds⟩ := h
  set need := (if r.limit < r.stop + p.length - r.start then r.limit
    else r.stop + p.length - r.start) with hneed
  have hlimit : need ≤ r.limit := by
    rw [hneed]
    split <;> omega
  have hroom : bytes.length ≤ r.start + need := by
    rw [hneed]
    split <;> omega
  obtain ⟨buf, hgrow, hbuf, hcap, hkept⟩ :=
    r.grow_spec ⟨hstop, hstart, hwindow, hfits, hsmall, hholds⟩ hlimit hroom
  have hsome : 0 < buf.length := by
    refine lt_of_lt_of_le ?_ hbuf
    rw [hneed]
    split <;> omega
  obtain ⟨hlen, hnext, hplaced⟩ := copyIn_spec (le_refl p.length) hsome hkept
  have hunfold : r.append p =
      if buf.length < (bytes ++ p).length - r.start then
        { r with buf := (copyIn p.length buf bytes.length p).1, stop := (bytes ++ p).length,
                 start := (bytes ++ p).length - buf.length }
      else { r with buf := (copyIn p.length buf bytes.length p).1,
                    stop := (bytes ++ p).length } := by
    unfold append
    simp only [← hneed, hgrow]
    simp only [hstop, hnext, hlen]
  rw [List.length_append] at hunfold hplaced
  have hlimit' : buf.length < r.limit → bytes.length + p.length - r.start ≤ buf.length := by
    intro hlt
    rw [hneed] at hbuf
    split at hbuf <;> omega
  rw [hunfold]
  split
  · next hover =>
      refine ⟨⟨List.length_append.symm, ?_, ?_, ?_, ?_, ?_⟩, rfl, rfl, ?_⟩
      · simp only [List.length_append]
        omega
      · simp only [List.length_append]
        omega
      · simp only [List.length_append, hlen]
        omega
      · simp only [hlen]
        exact hcap
      · refine hplaced.mono ?_
        simp only
        omega
      · simp only [List.length_append]
        omega
  · next hfit =>
      refine ⟨⟨List.length_append.symm, ?_, ?_, ?_, ?_, ?_⟩, rfl, rfl, ?_⟩
      · simp only [List.length_append]
        omega
      · simp only [List.length_append]
        omega
      · simp only [List.length_append, hlen]
        omega
      · simp only [hlen]
        exact hcap
      · refine hplaced.mono ?_
        simp only
        omega
      · simp only [List.length_append]
        omega

/-- The ring keeps the last bytes of the stream, up to its limit. -/
structure Keeps (r : OutRing) (bytes : List UInt8) (closed : Bool) : Prop where
  stores : Stores r bytes
  oldest : r.start = bytes.length - r.limit
  positive : 0 < r.limit
  eof : r.eof = closed

theorem newOutRing_keeps (limit : ℤ) : Keeps (newOutRing limit) [] false := by
  have hpos : 0 < (newOutRing limit).limit := by
    unfold newOutRing
    split
    · exact Nat.two_pow_pos 20
    · simp only
      omega
  refine ⟨⟨rfl, le_rfl, Nat.zero_le _, le_rfl, Nat.zero_le _, ?_⟩, ?_, hpos, rfl⟩
  · intro o _ hlt
    cases hlt
  · exact (Nat.zero_sub _).symm

theorem Keeps.write {r : OutRing} {bytes : List UInt8} {closed : Bool} (h : Keeps r bytes closed)
    (p : List UInt8) : Keeps (r.write p) (bytes ++ p) closed ∧ (r.write p).limit = r.limit := by
  obtain ⟨hstores, holdest, hpos, heof⟩ := h
  unfold OutRing.write
  split
  · next hempty =>
      rw [List.isEmpty_iff.mp hempty, List.append_nil]
      exact ⟨⟨hstores, holdest, hpos, heof⟩, rfl⟩
  · next hsome =>
      have hne : p ≠ [] := fun h => hsome (List.isEmpty_iff.mpr h)
      split
      · next hover =>
          simp only
          set skip := p.length - r.limit with hskip
          have htake : (bytes ++ p.take skip).length = bytes.length + skip := by
            rw [List.length_append, List.length_take]
            omega
          have hlen : (p.drop skip).length = r.limit := by
            rw [List.length_drop]
            omega
          have hskipped : Stores { r with stop := r.stop + skip, start := r.stop + skip }
              (bytes ++ p.take skip) := by
            refine ⟨?_, ?_, ?_, ?_, hstores.small, ?_⟩
            · rw [htake, hstores.stop]
            · rw [htake, hstores.stop]
            · rw [htake, hstores.stop]
              exact Nat.le_add_right _ _
            · rw [htake, hstores.stop]
              exact Nat.le_add_right _ _
            · have hall := Holds.nothing r.buf (bytes ++ p.take skip)
              rwa [htake, ← hstores.stop] at hall
          have hrest : p.drop skip ≠ [] := List.ne_nil_of_length_pos (hlen ▸ hpos)
          obtain ⟨hstores', hlimit, heof', hstart⟩ := OutRing.append_spec hskipped hrest hlen.le
          rw [List.append_assoc, List.take_append_drop] at hstores' hstart
          refine ⟨⟨hstores', ?_, ?_, heof'.trans heof⟩, hlimit⟩
          · rw [hstart, hlimit]
            have hstop := hstores.stop
            simp only [List.length_append]
            omega
          · rw [hlimit]
            exact hpos
      · next hfit =>
          obtain ⟨hstores', hlimit, heof', hstart⟩ :=
            OutRing.append_spec hstores hne (Nat.le_of_not_lt hfit)
          refine ⟨⟨hstores', ?_, ?_, heof'.trans heof⟩, hlimit⟩
          · rw [hstart, hlimit, holdest, List.length_append]
            omega
          · rw [hlimit]
            exact hpos

/-! ## Reading -/

/-- Copying out takes the stream's bytes in order, whatever the wrap. -/
theorem copyOut_spec {fuel : ℕ} {buf bytes data : List UInt8} {lo origin n : ℕ}
    (hholds : Holds buf bytes lo) (hpos : 0 < buf.length) (hlo : lo ≤ origin)
    (hn : origin + n ≤ bytes.length) (hdata : data = (bytes.drop origin).take data.length)
    (hle : data.length ≤ n) (hfuel : n ≤ data.length + fuel) :
    copyOut fuel buf origin n data = (bytes.drop origin).take n := by
  induction fuel generalizing data with
  | zero =>
      have hlen : data.length = n := by omega
      rw [copyOut, hdata, hlen]
  | succ fuel ih =>
      rw [copyOut]
      split
      · next hlt =>
          simp only
          set pos := (origin + data.length) % buf.length with hplace
          have hmod : pos < buf.length := Nat.mod_lt _ hpos
          set k := min (buf.length - pos) (n - data.length) with hk
          have hone : 1 ≤ k := by omega
          have hrun : (buf.drop pos).take (n - data.length) =
              (bytes.drop (origin + data.length)).take k := by
            rw [← hholds.take_drop (by omega) (by omega) (by omega : pos + k ≤ buf.length),
              List.take_eq_take_min, List.length_drop, Nat.min_comm]
          have hlen : ((bytes.drop (origin + data.length)).take k).length = k := by
            rw [List.length_take, List.length_drop]
            omega
          rw [hrun]
          refine ih ?_ ?_ ?_
          · rw [List.length_append, hlen, List.take_add, ← hdata, List.drop_drop]
          · rw [List.length_append, hlen]
            omega
          · rw [List.length_append, hlen]
            omega
      · next hge =>
          have hlen : data.length = n := by omega
          rw [hdata, hlen]

/-- A read returns the bytes of the stream from where it starts on. -/
structure ReadSpec (bytes : List UInt8) (closed : Bool) (limit : ℕ) (offset most : ℤ)
    (c : RingChunk) : Prop where
  origin : c.origin =
    if offset < 0 then bytes.length - limit
    else min (max offset.toNat (bytes.length - limit)) bytes.length
  data : c.data = (bytes.drop c.origin).take
    (if most ≤ 0 then maxProcessChunkBytes else most.toNat)
  next : c.next = c.origin + c.data.length
  dropped : c.dropped ↔ 0 ≤ offset ∧ offset < (bytes.length - limit : ℕ)
  eof : c.eof ↔ closed ∧ c.next = bytes.length

theorem Keeps.read {r : OutRing} {bytes : List UInt8} {closed : Bool} (h : Keeps r bytes closed)
    (offset most : ℤ) : ReadSpec bytes closed r.limit offset most (r.read offset most) := by
  obtain ⟨⟨hstop, hstart, hwindow, hfits, hsmall, hholds⟩, holdest, hpos, heof⟩ := h
  set bound := if most ≤ 0 then maxProcessChunkBytes else most.toNat with hbound
  set asked := if offset < r.start then r.start else offset.toNat with hasked
  set origin := if r.stop < asked then r.stop else asked with horigin
  set n := if bound < r.stop - origin then bound else r.stop - origin with hn
  have hread : r.read offset most =
      { data := copyOut n r.buf origin n []
        origin := origin
        next := origin + n
        dropped := decide (0 ≤ offset ∧ offset < r.start)
        eof := r.eof && decide (origin + n = r.stop) } := rfl
  have hreach : r.start ≤ asked := by
    rw [hasked]
    split <;> omega
  have hmin : origin = min asked r.stop := by
    rw [horigin]
    split <;> omega
  have hcount : n = min bound (r.stop - origin) := by
    rw [hn]
    split <;> omega
  have hdata : copyOut n r.buf origin n [] = (bytes.drop origin).take bound := by
    have hdrop : (bytes.drop origin).length = r.stop - origin := by
      rw [List.length_drop, hstop]
    rw [List.take_eq_take_min, hdrop, ← hcount]
    by_cases hzero : n = 0
    · rw [hzero]
      rfl
    · exact copyOut_spec hholds (by omega) (by omega) (by omega) rfl (Nat.zero_le n)
        (Nat.le_add_left n 0)
  have hlen : ((bytes.drop origin).take bound).length = n := by
    rw [List.length_take, List.length_drop, hcount, hstop]
  rw [hread]
  refine ⟨?_, hdata, ?_, ?_, ?_⟩
  · simp only
    rw [hmin, hasked, ← holdest, ← hstop]
    split <;> split <;> omega
  · simp only [hdata, hlen]
  · simp only [decide_eq_true_eq]
    rw [holdest]
  · simp [heof, hstop]

/-! ## Runs -/

def closed (ops : List Op) : Bool := ops.contains .closeEOF

/-- The bytes the ring keeps, in the order of their offsets. -/
def OutRing.retained (r : OutRing) : List UInt8 :=
  (List.range' r.start (r.stop - r.start)).map fun o => r.buf[o % r.buf.length]?.getD 0

theorem Keeps.retained {r : OutRing} {bytes : List UInt8} {closed : Bool}
    (h : Keeps r bytes closed) : r.retained = bytes.drop (bytes.length - min bytes.length r.limit) := by
  have hlo : bytes.length - min bytes.length r.limit = r.start := by
    rw [h.oldest]
    omega
  rw [hlo]
  refine List.ext_getElem? fun i => ?_
  rw [OutRing.retained, List.getElem?_map, List.getElem?_drop, h.stores.stop]
  by_cases hi : r.start + i < bytes.length
  · rw [List.getElem?_range' (by omega), Option.map_some, Nat.one_mul,
      h.stores.holds _ (Nat.le_add_right _ _) hi, List.getElem?_eq_getElem hi, Option.getD_some]
  · have hnone : (List.range' r.start (bytes.length - r.start))[i]? = none := by
      rw [List.getElem?_eq_none_iff, List.length_range']
      omega
    rw [hnone, List.getElem?_eq_none (Nat.le_of_not_lt hi)]
    rfl

/-- What a reader that resumes has got: runs of the stream in order, apart only where a read
reports dropped bytes, with nothing between them that the ring still keeps. -/
structure Follows (s : System) (bytes : List UInt8) : Prop where
  cursor : ∀ c ∈ s.chunks.getLast?, s.cursor = c.next
  order : s.chunks.IsChain fun c d => c.next ≤ d.origin ∧ (d.dropped ↔ c.next < d.origin)
  data : ∀ c ∈ s.chunks, c.origin ≤ c.next ∧ c.next ≤ bytes.length ∧
    c.data = (bytes.drop c.origin).take (c.next - c.origin)
  covers : ∀ first ∈ s.chunks.head?, ∀ last ∈ s.chunks.getLast?, ∀ o, s.ring.start ≤ o →
    first.origin ≤ o → o < last.next → ∃ c ∈ s.chunks, c.origin ≤ o ∧ o < c.next

/-- More bytes and a later window leave what a reader has got as it is. -/
theorem Follows.extend {s : System} {bytes more : List UInt8} (h : Follows s bytes)
    {ring : OutRing} (hstart : s.ring.start ≤ ring.start) :
    Follows { s with ring := ring } (bytes ++ more) where
  cursor := h.cursor
  order := h.order
  data c hc := by
    obtain ⟨hle, hnext, hdata⟩ := h.data c hc
    refine ⟨hle, ?_, ?_⟩
    · rw [List.length_append]
      exact hnext.trans (Nat.le_add_right _ _)
    · rw [List.drop_append_of_le_length (hle.trans hnext), List.take_append_of_le_length, hdata]
      rw [List.length_drop]
      exact Nat.sub_le_sub_right hnext _
  covers first hfirst last hlast o ho := h.covers first hfirst last hlast o (hstart.trans ho)

/-- A read from the offset of the last one. -/
theorem Follows.resume {s : System} {bytes : List UInt8} {shut : Bool} (h : Follows s bytes)
    (hkeeps : Keeps s.ring bytes shut) (most : ℤ) :
    Follows (s.step (.resume most)) bytes := by
  have hspec := hkeeps.read s.cursor most
  set c := s.ring.read s.cursor most with hc
  have hlo := hkeeps.oldest
  have hstep : s.step (.resume most) =
      { ring := s.ring, cursor := c.next, chunks := s.chunks ++ [c] } := rfl
  have horigin : c.origin ≤ bytes.length := by
    rw [hspec.origin]
    split <;> omega
  have hnext : c.next ≤ bytes.length := by
    rw [hspec.next, hspec.data, List.length_take, List.length_drop]
    omega
  have hafter : ∀ d ∈ s.chunks.getLast?, d.next ≤ c.origin ∧ (c.dropped ↔ d.next < c.origin) ∧
      ∀ o, s.ring.start ≤ o → d.next ≤ o → c.origin ≤ o := by
    intro d hd
    have hcursor := h.cursor d hd
    have hle := (h.data d (List.mem_of_mem_getLast? hd)).2.1
    have heq := hspec.origin
    have hdropped := hspec.dropped
    rw [hcursor] at heq hdropped
    rw [if_neg (by omega), Int.toNat_natCast] at heq
    refine ⟨by omega, ?_, ?_⟩
    · rw [hdropped]
      omega
    · intro o ho hdo
      omega
  rw [hstep]
  constructor
  · intro d hd
    simp only [List.getLast?_concat, Option.mem_def, Option.some.injEq] at hd
    rw [← hd]
  · refine List.isChain_append.mpr ⟨h.order, List.isChain_singleton _, ?_⟩
    intro d hd e he
    simp only [List.head?_cons, Option.mem_def, Option.some.injEq] at he
    subst he
    exact ⟨(hafter d hd).1, (hafter d hd).2.1⟩
  · intro d hd
    rcases List.mem_append.mp hd with hd | hd
    · exact h.data d hd
    · obtain rfl := List.mem_singleton.mp hd
      refine ⟨?_, hnext, ?_⟩
      · rw [hspec.next]
        exact Nat.le_add_right _ _
      · rw [hspec.next, Nat.add_sub_cancel_left]
        conv_lhs => rw [hspec.data]
        rw [hspec.data, List.length_take, ← List.take_eq_take_min]
  · intro first hfirst last hlast o ho hfo hol
    simp only [List.getLast?_concat, Option.mem_def, Option.some.injEq] at hlast
    subst hlast
    cases hd : s.chunks.getLast? with
    | none =>
        rw [List.getLast?_eq_none_iff] at hd
        rw [hd] at hfirst
        cases hfirst
        exact ⟨c, List.mem_append_right _ (List.mem_singleton.mpr rfl), hfo, hol⟩
    | some d =>
        by_cases hdo : d.next ≤ o
        · exact ⟨c, List.mem_append_right _ (List.mem_singleton.mpr rfl),
            (hafter d hd).2.2 o ho hdo, hol⟩
        · have hhead : first ∈ s.chunks.head? := by
            rw [List.head?_append_of_ne_nil _ (List.ne_nil_of_mem (List.mem_of_mem_getLast? hd))]
              at hfirst
            exact hfirst
          obtain ⟨e, he, hrange⟩ := h.covers first hhead d hd o ho hfo (Nat.lt_of_not_le hdo)
          exact ⟨e, List.mem_append_left _ he, hrange⟩

/-- What the pump and the readers see of a ring after any calls. -/
structure Replays (limit cursor : ℤ) (ops : List Op) : Prop where
  total : (run limit cursor ops).ring.stop = (stream ops).length
  window : (run limit cursor ops).ring.retained =
    (stream ops).drop ((stream ops).length - min (stream ops).length (newOutRing limit).limit)
  read : ∀ offset most, ReadSpec (stream ops) (closed ops) (newOutRing limit).limit offset most
    ((run limit cursor ops).ring.read offset most)
  reader : Follows (run limit cursor ops) (stream ops)
  ended : ∀ most, ((run limit cursor ops).ring.read (run limit cursor ops).cursor most).eof →
    closed ops ∧ ∀ first ∈ ((run limit cursor ops).step (.resume most)).chunks.head?,
      ∀ o, (run limit cursor ops).ring.start ≤ o → first.origin ≤ o → o < (stream ops).length →
        ∃ c ∈ ((run limit cursor ops).step (.resume most)).chunks, c.origin ≤ o ∧ o < c.next

theorem run_snoc (limit cursor : ℤ) (ops : List Op) (op : Op) :
    run limit cursor (ops ++ [op]) = (run limit cursor ops).step op := by
  rw [run, List.foldl_append]
  rfl

theorem run_keeps (limit cursor : ℤ) (ops : List Op) :
    Keeps (run limit cursor ops).ring (stream ops) (closed ops) ∧
      (run limit cursor ops).ring.limit = (newOutRing limit).limit ∧
      Follows (run limit cursor ops) (stream ops) := by
  induction ops using List.reverseRecOn with
  | nil =>
      refine ⟨newOutRing_keeps limit, rfl, ?_⟩
      constructor <;> simp [run]
  | append_singleton ops op ih =>
      obtain ⟨hkeeps, hlimit, hfollows⟩ := ih
      rw [run_snoc]
      have hstream : stream (ops ++ [op]) = stream ops ++ stream [op] := List.flatMap_append
      have hclosed : closed (ops ++ [op]) = (closed ops || op == .closeEOF) := by
        cases op <;> simp [closed]
      rw [hstream, hclosed]
      cases op with
      | write p =>
          obtain ⟨hwrite, hsame⟩ := hkeeps.write p
          have hp : stream [Op.write p] = p := List.append_nil p
          have hopen : (Op.write p == Op.closeEOF) = false := rfl
          rw [hp, hopen, Bool.or_false]
          refine ⟨hwrite, hsame.trans hlimit, hfollows.extend ?_⟩
          rw [hwrite.oldest, hkeeps.oldest, hsame, List.length_append]
          omega
      | closeEOF =>
          have hnone : stream [Op.closeEOF] = [] := rfl
          have hshut : (Op.closeEOF == Op.closeEOF) = true := rfl
          rw [hnone, hshut, Bool.or_true]
          refine ⟨?_, hlimit, hfollows.extend le_rfl⟩
          rw [List.append_nil]
          obtain ⟨hstores, holdest, hpos, -⟩ := hkeeps
          obtain ⟨hstop, hstart, hwindow, hfits, hsmall, hholds⟩ := hstores
          exact ⟨⟨hstop, hstart, hwindow, hfits, hsmall, hholds⟩, holdest, hpos, rfl⟩
      | read offset most =>
          have hnone : stream [Op.read offset most] = [] := rfl
          have hopen : (Op.read offset most == Op.closeEOF) = false := rfl
          rw [hnone, hopen, Bool.or_false, List.append_nil]
          exact ⟨hkeeps, hlimit, hfollows⟩
      | resume most =>
          have hnone : stream [Op.resume most] = [] := rfl
          have hopen : (Op.resume most == Op.closeEOF) = false := rfl
          rw [hnone, hopen, Bool.or_false, List.append_nil]
          exact ⟨hkeeps, hlimit, hfollows.resume hkeeps most⟩

theorem outRing_replays (limit cursor : ℤ) (ops : List Op) : Replays limit cursor ops := by
  obtain ⟨hkeeps, hlimit, hfollows⟩ := run_keeps limit cursor ops
  refine ⟨hkeeps.stores.stop, ?_, fun offset most => ?_, hfollows, fun most heof => ?_⟩
  · rw [hkeeps.retained, hlimit]
  · rw [← hlimit]
    exact hkeeps.read offset most
  · obtain ⟨hclosed, hnext⟩ := (hkeeps.read (run limit cursor ops).cursor most).eof.mp heof
    refine ⟨hclosed, fun first hfirst o ho hfo hol => ?_⟩
    refine (hfollows.resume hkeeps most).covers first hfirst _ ?_ o ho hfo (hnext.symm ▸ hol)
    exact List.getLast?_concat

end Sky.Process
