import Mathlib

/-! # Circular storage: position `o` of a stream lives at `o % size` -/

namespace Sky.Circular

variable {α : Type*}

/-- The buffer holds the positions of the stream from `lo` on. -/
def Holds (buf stream : List α) (lo : ℕ) : Prop :=
  ∀ o, lo ≤ o → o < stream.length → buf[o % buf.length]? = stream[o]?

theorem Holds.mono {buf stream : List α} {lo lo' : ℕ} (h : Holds buf stream lo) (hle : lo ≤ lo') :
    Holds buf stream lo' := fun o ho hlt => h o (hle.trans ho) hlt

theorem Holds.nothing (buf stream : List α) : Holds buf stream stream.length :=
  fun _ ho hlt => absurd hlt (Nat.not_lt.mpr ho)

/-- Overwrite the buffer from a position on. -/
def overwrite (buf : List α) (pos : ℕ) (q : List α) : List α :=
  buf.take pos ++ q ++ buf.drop (pos + q.length)

theorem length_overwrite {buf q : List α} {pos : ℕ} (h : pos + q.length ≤ buf.length) :
    (overwrite buf pos q).length = buf.length := by
  simp only [overwrite, List.length_append, List.length_take, List.length_drop]
  omega

theorem getElem?_overwrite_of_mem {buf q : List α} {pos i : ℕ} (h : pos + q.length ≤ buf.length)
    (hi : i < q.length) : (overwrite buf pos q)[pos + i]? = q[i]? := by
  have hlen : (buf.take pos).length = pos := by
    rw [List.length_take]
    omega
  rw [overwrite, List.append_assoc, List.getElem?_append_right (by omega), hlen,
    Nat.add_sub_cancel_left, List.getElem?_append_left hi]

theorem getElem?_overwrite_of_not_mem {buf q : List α} {pos j : ℕ}
    (h : pos + q.length ≤ buf.length) (hj : ∀ i < q.length, j ≠ pos + i) :
    (overwrite buf pos q)[j]? = buf[j]? := by
  have hlen : (buf.take pos).length = pos := by
    rw [List.length_take]
    omega
  by_cases hlt : j < pos
  · rw [overwrite, List.append_assoc, List.getElem?_append_left (by omega),
      List.getElem?_take_of_lt hlt]
  · have hge : pos + q.length ≤ j := by
      by_contra hlt'
      exact hj (j - pos) (by omega) (by omega)
    rw [overwrite, List.getElem?_append_right (by simp only [List.length_append]; omega),
      List.getElem?_drop]
    congr 1
    simp only [List.length_append]
    omega

theorem add_mod_of_fits {a i size : ℕ} (h : a % size + i < size) :
    (a + i) % size = a % size + i := by
  rw [Nat.add_mod, Nat.mod_eq_of_lt (by omega : i < size), Nat.mod_eq_of_lt h]

/-- Two positions in one place are a whole number of turns apart. -/
theorem size_le_of_mod_eq {a b size : ℕ} (hlt : a < b) (h : a % size = b % size) :
    size ≤ b - a := by
  have hdvd : size ∣ b - a := (Nat.modEq_iff_dvd' hlt.le).mp h
  exact Nat.le_of_dvd (Nat.sub_pos_of_lt hlt) hdvd

/-- Putting the next bytes of the stream in their place keeps what they do not overwrite. -/
theorem Holds.put {buf stream q : List α} {lo : ℕ} (h : Holds buf stream lo)
    (hfit : stream.length % buf.length + q.length ≤ buf.length) :
    Holds (overwrite buf (stream.length % buf.length) q) (stream ++ q)
      (max lo ((stream ++ q).length - buf.length)) := by
  intro o ho hlt
  rw [length_overwrite hfit]
  rw [List.length_append] at ho hlt
  have hlo : lo ≤ o := (Nat.le_max_left _ _).trans ho
  have hkeep : stream.length + q.length - buf.length ≤ o := (Nat.le_max_right _ _).trans ho
  by_cases hnew : stream.length ≤ o
  · obtain ⟨i, rfl⟩ := Nat.exists_eq_add_of_le hnew
    have hi : i < q.length := by omega
    rw [add_mod_of_fits (by omega), getElem?_overwrite_of_mem hfit hi,
      List.getElem?_append_right hnew, Nat.add_sub_cancel_left]
  · have hold : o < stream.length := Nat.lt_of_not_le hnew
    rw [List.getElem?_append_left hold, ← h o hlo hold]
    refine getElem?_overwrite_of_not_mem hfit fun i hi heq => ?_
    have hmod : o % buf.length = (stream.length + i) % buf.length := by
      rw [add_mod_of_fits (by omega), heq]
    have hturn := size_le_of_mod_eq (by omega) hmod
    omega

/-- The bytes in place from a position on are those of the stream. -/
theorem Holds.take_drop {buf stream : List α} {lo o n : ℕ} (h : Holds buf stream lo) (hlo : lo ≤ o)
    (hn : o + n ≤ stream.length) (hfit : o % buf.length + n ≤ buf.length) :
    (buf.drop (o % buf.length)).take n = (stream.drop o).take n := by
  refine List.ext_getElem? fun i => ?_
  by_cases hi : i < n
  · rw [List.getElem?_take_of_lt hi, List.getElem?_take_of_lt hi, List.getElem?_drop,
      List.getElem?_drop, ← h (o + i) (by omega) (by omega), add_mod_of_fits (by omega)]
  · rw [List.getElem?_eq_none (by rw [List.length_take]; omega),
      List.getElem?_eq_none (by rw [List.length_take]; omega)]

/-- Moving positions to a buffer of another size, one at a time. -/
def relayout (buf : List α) (d : α) (lo n : ℕ) (into : List α) : List α :=
  (List.range' lo n).foldl (fun into o =>
    into.set (o % into.length) (buf[o % buf.length]?.getD d)) into

theorem length_relayout (buf : List α) (d : α) (lo n : ℕ) (into : List α) :
    (relayout buf d lo n into).length = into.length := by
  unfold relayout
  induction n generalizing lo into with
  | zero => rfl
  | succ n ih => rw [List.range'_succ, List.foldl_cons, ih, List.length_set]

theorem relayout_succ (buf : List α) (d : α) (lo n : ℕ) (into : List α) :
    relayout buf d lo (n + 1) into =
      (relayout buf d lo n into).set ((lo + n) % into.length)
        (buf[(lo + n) % buf.length]?.getD d) := by
  have hlen := length_relayout buf d lo n into
  unfold relayout at hlen ⊢
  rw [List.range'_concat, List.foldl_append, List.foldl_cons, List.foldl_nil, Nat.one_mul, hlen]

theorem Holds.relayout {buf stream : List α} {lo n : ℕ} (h : Holds buf stream lo) (d : α)
    {into : List α} (hn : lo + n ≤ stream.length) (hfit : n ≤ into.length) :
    ∀ o, lo ≤ o → o < lo + n →
      (Circular.relayout buf d lo n into)[o % into.length]? = stream[o]? := by
  induction n with
  | zero =>
      intro o ho hlt
      omega
  | succ n ih =>
      intro o ho hlt
      have hpos : 0 < into.length := by omega
      rw [relayout_succ]
      by_cases hlast : o = lo + n
      · subst hlast
        have hplace : (lo + n) % into.length < (Circular.relayout buf d lo n into).length := by
          rw [length_relayout]
          exact Nat.mod_lt _ hpos
        rw [List.getElem?_set_self hplace, h (lo + n) ho (by omega),
          List.getElem?_eq_getElem (by omega : lo + n < stream.length), Option.getD_some]
      · rw [List.getElem?_set_ne]
        · exact ih (by omega) (by omega) o ho (by omega)
        · intro heq
          have hturn := size_le_of_mod_eq (by omega : o < lo + n) heq.symm
          omega

end Sky.Circular
