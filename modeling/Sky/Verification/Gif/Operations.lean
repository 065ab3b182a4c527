import Sky.Verification.Gif.Processing

/-! # Crop, trim and reduceFrames -/

namespace Sky.StdImage

open Library

/-! ## Cropped images -/

/-- Where the pixels of a cropped image come from. -/
def shift (r : Rectangle) (w h : ℕ) (q : Pixel w h) : ℤ × ℤ := (r.minX + q.1.1, r.minY + q.1.2)

theorem colorAt_copyRect {img : Image} (honeBit : img.OneBit) (r : Rectangle) (x y : ℤ) :
    (copyRect img r).colorAt x y = if (Rectangle.rect 0 0 r.dx r.dy).Contains x y then
      img.colorAt (r.minX + x) (r.minY + y) else .clear := by
  show (if (Rectangle.rect 0 0 r.dx r.dy).Contains x y then
    (img.colorAt (r.minX + x) (r.minY + y)).drawn else _) = _
  rw [(honeBit _ _).drawn]

theorem oneBit_copyRect {img : Image} (honeBit : img.OneBit) (r : Rectangle) :
    (copyRect img r).OneBit := by
  intro x y
  rw [colorAt_copyRect honeBit]
  split
  · exact honeBit _ _
  · exact .inl rfl

theorem inkOn_copyRect {img : Image} (honeBit : img.OneBit) {r : Rectangle} {w h : ℕ}
    (hw : r.dx = w) (hh : r.dy = h) : (copyRect img r).inkOn w h = img.ink ∘ shift r w h := by
  funext q
  show ((copyRect img r).colorAt q.1.1 q.1.2).ink = _
  rw [colorAt_copyRect honeBit, hw, hh, if_pos q.2]
  rfl

theorem intersect_size (r : Rectangle) (W H : ℕ) : ∃ w h : ℕ,
    (r.intersect (.rect 0 0 W H)).dx = w ∧ (r.intersect (.rect 0 0 W H)).dy = h ∧
      w ≤ W ∧ h ≤ H := by
  have hrect : Rectangle.rect 0 0 (W : ℤ) H = ⟨0, 0, W, H⟩ := by simp [Rectangle.rect]
  rw [hrect]
  simp only [Rectangle.intersect]
  split
  · exact ⟨0, 0, rfl, rfl, Nat.zero_le _, Nat.zero_le _⟩
  · rename_i hempty
    simp only [Rectangle.Empty, not_or, not_le] at hempty
    refine ⟨(min r.maxX W - max r.minX 0).toNat, (min r.maxY H - max r.minY 0).toNat, ?_, ?_, ?_, ?_⟩
    · simp only [Rectangle.dx]
      omega
    · simp only [Rectangle.dy]
      omega
    · omega
    · omega

/-- The layers of cropped images stand in the places of the layers of the source. -/
theorem pictureLayers_cropped {r : Rectangle} {w h : ℕ} (hw : r.dx = w) (hh : r.dy = h)
    (screen : Rectangle) {imgs : List Image} {qs : List (Paletted × UInt8)}
    (honeBit : ∀ img ∈ imgs, img.OneBit) :
    ((imgs.map fun img => copyRect img r).zip (qs.map Prod.snd)).map (pictureLayer w h) =
      List.zipWith (Layer.whole (shift r w h)) (layers screen qs) (imgs.map Image.ink) := by
  induction imgs generalizing qs with
  | nil => simp
  | cons img imgs ih =>
      cases qs with
      | nil => rfl
      | cons q qs =>
          have hrest := @ih qs fun img' himg' => honeBit img' (List.mem_cons_of_mem _ himg')
          have himg := honeBit img List.mem_cons_self
          have hlayer : pictureLayer w h (copyRect img r, q.2) =
              Layer.whole (shift r w h) (q.1.layer q.2 screen) img.ink := by
            rw [pictureLayer, inkOn_copyRect himg hw hh]
            rfl
          rw [List.map_cons, List.map_cons, List.zip_cons_cons, List.map_cons, hlayer, hrest]
          rfl

/-! ## Results -/

theorem results_all {fn : Image → Except Failure Image} {g : Image → Image} {imgs rs : List Image}
    {i : ℕ} (h : resultsFrom fn (fun _ => true) i imgs = .ok rs)
    (hfn : ∀ img ∈ imgs, ∀ r, fn img = .ok r → r = g img) : rs = imgs.map g := by
  induction imgs generalizing i rs with
  | nil =>
      cases h
      rfl
  | cons img imgs ih =>
      rw [resultsFrom, if_pos rfl] at h
      cases hr : fn img with
      | error e =>
          rw [hr] at h
          cases h
      | ok r =>
          cases hrs : resultsFrom fn (fun _ => true) (i + 1) imgs with
          | error e =>
              rw [hr, hrs] at h
              cases h
          | ok rs' =>
              rw [hr, hrs] at h
              cases h
              rw [List.map_cons, hfn img List.mem_cons_self r hr,
                ih hrs fun img' himg' => hfn img' (List.mem_cons_of_mem _ himg')]

theorem results_mem {keep : ℕ → Bool} {imgs rs : List Image} {i : ℕ}
    (h : resultsFrom .ok keep i imgs = .ok rs) : ∀ r ∈ rs, r ∈ imgs := by
  induction imgs generalizing i rs with
  | nil =>
      cases h
      simp
  | cons img imgs ih =>
      rw [resultsFrom] at h
      split at h
      · cases hrs : resultsFrom .ok keep (i + 1) imgs with
        | error e =>
            rw [hrs] at h
            cases h
        | ok rs' =>
            rw [hrs] at h
            cases h
            intro r hr
            rcases List.mem_cons.mp hr with rfl | hr
            · exact List.mem_cons_self
            · exact List.mem_cons_of_mem _ (ih hrs r hr)
      · exact fun r hr => List.mem_cons_of_mem _ (ih h r hr)

/-! ## Disposals -/

theorem disposal_info (b : Block) : b.info.disposal &&& 7 = b.info.disposal := by
  unfold Block.info
  cases b.gce with
  | none =>
      show (0 : UInt8) &&& 7 = 0
      decide
  | some gce =>
      have hand : ∀ x : UInt8, x &&& 7 &&& 7 = x &&& 7 := by
        intro x
        rw [UInt8.and_assoc]
        rfl
      exact hand _

theorem writtenDisposal_fits (data : Gif) (forceBackground : Bool) (i : ℕ) :
    writtenDisposal data.scanned forceBackground i &&& 7 =
      writtenDisposal data.scanned forceBackground i := by
  unfold writtenDisposal
  split
  · rfl
  · simp only [Gif.scanned, List.getElem?_map, Option.map_map]
    cases data.blocks[i]? with
    | none => rfl
    | some b => exact disposal_info b

theorem Decodes.disposals {data : Gif} {qs : List (Paletted × UInt8)}
    (h : Decodes data data.frames qs) :
    (List.range' 0 qs.length).map (writtenDisposal data.scanned false) = qs.map Prod.snd := by
  have hlen : data.blocks.length = qs.length := by
    rw [← h.length_eq, Gif.frames, List.length_map]
  apply List.ext_getElem
  · simp
  · intro i hi hi'
    rw [List.length_map] at hi'
    have hblock : i < data.blocks.length := by omega
    have hframe : i < data.frames.length := by
      rw [Gif.frames, List.length_map]
      exact hblock
    have hdisposal := (List.forall₂_iff_get.mp h).2 i hframe hi'
    rw [List.getElem_map, List.getElem_map, List.getElem_range']
    simp only [writtenDisposal, Bool.false_eq_true, if_false, Gif.scanned, List.getElem?_map]
    rw [Nat.zero_add, Nat.one_mul, List.getElem?_eq_getElem hblock]
    simpa [Gif.frames] using hdisposal.2

/-! ## What the operations show -/

theorem size_lt (data : Gif) : data.width < 65536 ∧ data.height < 65536 := by
  have hbound : ∀ lo hi : UInt8, le16 lo hi < 65536 := by
    intro lo hi
    have hlo := lo.toNat_lt
    have hhi := hi.toNat_lt
    unfold le16
    omega
  exact ⟨hbound _ _, hbound _ _⟩

theorem length_shown {data : Gif} {imgs : List Image} (h : data.shown = .ok imgs) :
    imgs.length ≤ imageMaxFrames ∧ ∀ img ∈ imgs,
      img.bounds = .rect 0 0 data.width data.height ∧ img.OneBit := by
  obtain ⟨qs, hqs, hlen, rfl⟩ := shown_eq_ok.mp h
  constructor
  · rw [length_composeAll, ← hqs.length_eq]
    exact hlen
  · intro img himg
    exact ⟨bounds_composeAll qs _ img himg,
      oneBit_composeAll qs _ (Image.oneBit_newNRGBA _) hqs.oneBit img himg⟩

section

variable {op : String} {data out : Gif}

/-- Frames that are cut to one area of the screen and keep their disposals show what is cut. -/
theorem cropped_shows {fn : Image → Except Failure Image} {area : Rectangle}
    (hfn : ∀ img : Image, img.bounds = .rect 0 0 data.width data.height → ∀ r, fn img = .ok r →
      r = copyRect img (area.intersect img.bounds))
    (h : gifAnimate op data data.scanned fn none false = .ok out)
    (hcolors : ∀ imgs rs, data.shown = .ok imgs →
      resultsFrom fn (fun _ => true) 0 imgs = .ok rs → ∀ r ∈ rs, r.FewColors) :
    ∃ imgs rs, data.shown = .ok imgs ∧ resultsFrom fn (fun _ => true) 0 imgs = .ok rs ∧
      out.shown = .ok rs := by
  obtain ⟨imgs, ps, himgs, hps, hne, hhead, hhold, hlen, hall, hdisposals⟩ := gifAnimate_eq_ok h
  obtain ⟨hcount, himages⟩ := length_shown himgs
  obtain ⟨qs, hqs, -, himgs'⟩ := shown_eq_ok.mp himgs
  obtain ⟨w, h', hw, hh, hwle, hhle⟩ := intersect_size area data.width data.height
  obtain ⟨hwidth, hheight⟩ := size_lt data
  refine ⟨imgs, ps.map Prod.fst, himgs, hps, ?_⟩
  generalize hr : area.intersect (.rect 0 0 data.width data.height) = r at hw hh
  have hfst : ps.map Prod.fst = imgs.map fun img => copyRect img r := by
    refine results_all hps fun img himg r' hr' => ?_
    have hb := (himages img himg).1
    rw [hfn img hb r' hr', hb, hr]
  have hsnd : ps.map Prod.snd = qs.map Prod.snd := by
    rw [hdisposals rfl, ← hqs.disposals, ← himgs', length_composeAll]
  have hzip : ps = (imgs.map fun img => copyRect img r).zip (qs.map Prod.snd) := by
    rw [← hfst, ← hsnd, ← List.unzip_fst, ← List.unzip_snd, List.zip_unzip]
  have hone : ∀ img ∈ imgs, img.OneBit := fun img himg => (himages img himg).2
  have hfits : ∀ p ∈ ps, Fits w h' p := by
    intro p hp
    have hmem : p.1 ∈ ps.map Prod.fst := List.mem_map_of_mem hp
    have hmem' := hmem
    rw [hfst] at hmem'
    obtain ⟨img, himg, hp'⟩ := List.mem_map.mp hmem'
    refine ⟨?_, ?_, hcolors imgs _ himgs hps _ hmem, ?_⟩
    · rw [← hp', copyRect, Image.bounds_make, hw, hh]
    · rw [← hp']
      exact oneBit_copyRect (hone img himg) r
    · obtain ⟨j, hj⟩ := hall p hp
      rw [hj]
      exact writtenDisposal_fits data false j
  refine shown_of_holding hhead hhold hne (hlen.trans hcount) hfits (by omega) (by omega) ?_
  have hink := ink_composeAll qs (newGifComposer data.width data.height)
  have hscreen : (newGifComposer data.width data.height).screen =
    Image.newNRGBA (.rect 0 0 data.width data.height) := rfl
  rw [hscreen, Image.ink_newNRGBA, Image.bounds_newNRGBA, himgs'] at hink
  calc Layer.shows (ps.map (pictureLayer w h')) (fun _ => none)
      = Layer.shows (List.zipWith (Layer.whole (shift r w h'))
          (layers (.rect 0 0 data.width data.height) qs) (imgs.map Image.ink)) (fun _ => none) := by
        rw [hzip, pictureLayers_cropped hw hh (.rect 0 0 data.width data.height) hone]
    _ = (imgs.map Image.ink).map (· ∘ shift r w h') := by
        rw [hink, Layer.shows_whole _ fun _ _ => rfl]
    _ = (ps.map Prod.fst).map (Image.inkOn w h') := by
        rw [hfst, List.map_map, List.map_map]
        refine List.map_congr_left fun img himg => ?_
        exact (inkOn_copyRect (hone img himg) hw hh).symm
    _ = ps.map fun p => p.1.inkOn w h' := by
        rw [List.map_map]
        rfl

/-- Complete pictures that are all cleared show themselves, whichever frames are kept. -/
theorem reduced_shows {keep : ℕ → Bool}
    (h : gifAnimate op data data.scanned .ok (some keep) true = .ok out)
    (hcolors : ∀ imgs rs, data.shown = .ok imgs → resultsFrom .ok keep 0 imgs = .ok rs →
      ∀ r ∈ rs, r.FewColors) :
    ∃ imgs rs, data.shown = .ok imgs ∧ resultsFrom .ok keep 0 imgs = .ok rs ∧
      out.shown = .ok rs := by
  obtain ⟨imgs, ps, himgs, hps, hne, hhead, hhold, hlen, hall, -⟩ := gifAnimate_eq_ok h
  obtain ⟨hcount, himages⟩ := length_shown himgs
  obtain ⟨hwidth, hheight⟩ := size_lt data
  refine ⟨imgs, ps.map Prod.fst, himgs, hps, ?_⟩
  have hdisposal : ∀ p ∈ ps, p.2 = gifDisposalBackground := by
    intro p hp
    obtain ⟨j, hj⟩ := hall p hp
    exact hj
  have hfits : ∀ p ∈ ps, Fits data.width data.height p := by
    intro p hp
    have hmem : p.1 ∈ ps.map Prod.fst := List.mem_map_of_mem hp
    obtain ⟨hbounds, hone⟩ := himages p.1 (results_mem hps p.1 hmem)
    refine ⟨hbounds, hone, hcolors imgs _ himgs hps _ hmem, ?_⟩
    rw [hdisposal p hp]
    rfl
  refine shown_of_holding hhead hhold hne (hlen.trans hcount) hfits hwidth hheight ?_
  rw [Layer.shows_cleared]
  · rw [List.map_map]
    rfl
  · intro l hl
    obtain ⟨p, -, rfl⟩ := List.mem_map.mp hl
    rfl
  · intro l hl
    obtain ⟨p, hp, rfl⟩ := List.mem_map.mp hl
    rw [pictureLayer, hdisposal p hp]
    rfl

end

/-! ## The operations -/

inductive Operation where
  | crop (outFormat : String) (x y w h : ℤ)
  | trim (outFormat : String) (threshold padding : ℤ)
  | reduceFrames (n : ℤ)

namespace Operation

def run (data : Gif) : Operation → Except Failure Output
  | crop outFormat x y w h => cropBytes data outFormat x y w h
  | trim outFormat threshold padding => trimBytes data outFormat threshold padding
  | reduceFrames n => (reduceFramesBytes data n).map .animation

/-- What the operation makes of one of the composed frames. -/
def result (composed : List Image) : Operation → Image → Except Failure Image
  | crop _ x y w h => cropArea x y w h
  | trim _ threshold padding =>
      (composed.foldl TrimBox.add ⟨byte threshold, 0, 0, 0, 0, false⟩).cut padding
  | reduceFrames _ => .ok

/-- Whether the `i`-th frame is kept. -/
def keeps : Operation → ℕ → Bool
  | reduceFrames n, i => (i : ℤ) % n = 0
  | _, _ => true

/-- The results of the composed frames that are kept. -/
def results (o : Operation) (data : Gif) : Except Failure (List Image) := do
  let composed ← data.shown
  resultsFrom (o.result composed) o.keeps 0 composed

end Operation

theorem foldImages_foldl {τ : Type} (f : τ → Image → τ) (imgs : List Image) (i : ℕ) (t : τ) :
    foldImages (fun _ img t => .ok (f t img)) i imgs t = .ok (imgs.foldl f t) := by
  induction imgs generalizing i t with
  | nil => rfl
  | cons img imgs ih =>
      rw [foldImages]
      exact ih (i + 1) (f t img)

/-- An animation that `imageApply` writes comes from `gifAnimate`, after the pass over all frames. -/
theorem imageApply_animation {τ : Type} {op outFormat : String} {data out : Gif}
    {keepAnimation forceBackground : Bool} {start : τ} {prepass : Option (τ → Image → τ)}
    {fn : τ → Image → Except Failure Image}
    (h : imageApply op data outFormat keepAnimation forceBackground start prepass fn =
      .ok (.animation out)) :
    ∃ t, gifAnimate op data data.scanned (fn t) none forceBackground = .ok out ∧
      ∀ imgs, data.shown = .ok imgs → t = prepass.elim start fun f => imgs.foldl f start := by
  unfold imageApply at h
  cases hcheck : imageCheckPixels op data.width data.height with
  | error e =>
      rw [hcheck] at h
      cases h
  | ok u =>
      cases hscan : gifScan op data gifDefaultLimits with
      | error e =>
          rw [hcheck, hscan] at h
          cases h
      | ok s =>
          obtain rfl := gifScan_eq_ok rfl hscan
          simp only [hcheck, hscan, bind, Except.bind] at h
          split at h
          · cases prepass with
            | none =>
                cases hg : gifAnimate op data data.scanned (fn start) none forceBackground with
                | error e =>
                    simp only [hg] at h
                    cases h
                | ok g =>
                    simp only [hg] at h
                    cases h
                    exact ⟨start, hg, fun _ _ => rfl⟩
            | some f =>
                cases heach : gifEachFrame op data data.scanned
                    (fun _ img t => .ok (f t img)) start with
                | error e =>
                    simp only [heach] at h
                    cases h
                | ok t =>
                    cases hg : gifAnimate op data data.scanned (fn t) none forceBackground with
                    | error e =>
                        simp only [heach, hg] at h
                        cases h
                    | ok g =>
                        simp only [heach, hg] at h
                        cases h
                        refine ⟨t, hg, fun imgs himgs => ?_⟩
                        obtain ⟨imgs', himgs', hfold⟩ := gifEachFrame_eq_ok.mp heach
                        rw [himgs] at himgs'
                        cases himgs'
                        rw [foldImages_foldl] at hfold
                        exact (Except.ok.inj hfold).symm
          · cases hfirst : gifFirstFrame op data with
            | error e =>
                simp only [hfirst] at h
                cases h
            | ok src =>
                cases hr : fn (prepass.elim start fun prepass => prepass start src) src with
                | error e =>
                    simp only [hfirst, hr] at h
                    cases h
                | ok r =>
                    simp only [hfirst, hr] at h
                    cases h

theorem reduceFrames_animation {data : Gif} {n : ℤ} {o : Output}
    (h : (reduceFramesBytes data n).map .animation = .ok o) :
    ∃ g, gifAnimate "image.reduceFrames" data data.scanned .ok
      (some fun i => (i : ℤ) % n = 0) true = .ok g ∧ o = .animation g := by
  cases hrun : reduceFramesBytes data n with
  | error e =>
      rw [hrun] at h
      cases h
  | ok g =>
      rw [hrun] at h
      cases h
      refine ⟨g, ?_, rfl⟩
      unfold reduceFramesBytes at hrun
      simp only at hrun
      split at hrun
      · cases hrun
      · cases hcheck : imageCheckPixels "image.reduceFrames" data.width data.height with
        | error e =>
            rw [hcheck] at hrun
            cases hrun
        | ok u =>
            cases hscan : gifScan "image.reduceFrames" data gifDefaultLimits with
            | error e =>
                rw [hcheck, hscan] at hrun
                cases hrun
            | ok s =>
                obtain rfl := gifScan_eq_ok rfl hscan
                simpa only [hcheck, hscan, bind, Except.bind] using hrun

theorem cropArea_eq_ok {x y w h : ℤ} {img r : Image} (hr : cropArea x y w h img = .ok r) :
    r = copyRect img ((Rectangle.rect (int (img.bounds.minX + x)) (int (img.bounds.minY + y))
      (int (int (img.bounds.minX + x) + w))
      (int (int (img.bounds.minY + y) + h))).intersect img.bounds) := by
  unfold cropArea at hr
  simp only at hr
  split at hr
  · cases hr
  · cases hr
    rfl

theorem cut_eq_ok {tb : TrimBox} {padding : ℤ} {img r : Image} (hr : tb.cut padding img = .ok r) :
    r = copyRect img ((Rectangle.rect (int (tb.minX - padding)) (int (tb.minY - padding))
      (int (tb.maxX + 1 + padding)) (int (tb.maxY + 1 + padding))).intersect img.bounds) := by
  unfold TrimBox.cut at hr
  split at hr
  · cases hr
  · cases hr
    rfl

/-- After every written frame the output shows what the operation makes of the source frame that
it was made from. -/
theorem processed_shows (o : Operation) (data out : Gif)
    (hrun : o.run data = .ok (.animation out))
    (hcolors : ∀ rs, o.results data = .ok rs → ∀ r ∈ rs, r.FewColors) :
    ∃ rs, o.results data = .ok rs ∧ out.shown = .ok rs := by
  have hresults : ∀ {imgs rs}, data.shown = .ok imgs →
      resultsFrom (o.result imgs) o.keeps 0 imgs = .ok rs → o.results data = .ok rs := by
    intro imgs rs himgs hrs
    rw [Operation.results, himgs]
    exact hrs
  cases o with
  | crop outFormat x y w h =>
      unfold Operation.run cropBytes at hrun
      simp only at hrun
      split at hrun
      · cases hrun
      · obtain ⟨_, hanimate, -⟩ := imageApply_animation hrun
        obtain ⟨imgs, rs, himgs, hrs, hshown⟩ := cropped_shows
          (fun img hb r hr => by
            rw [cropArea_eq_ok hr, hb])
          hanimate fun imgs rs himgs hrs => hcolors rs (hresults himgs hrs)
        exact ⟨rs, hresults himgs hrs, hshown⟩
  | trim outFormat threshold padding =>
      unfold Operation.run trimBytes at hrun
      simp only at hrun
      split at hrun
      · cases hrun
      · split at hrun
        · cases hrun
        · obtain ⟨tb, hanimate, hbox⟩ := imageApply_animation hrun
          have hcut : ∀ {imgs}, data.shown = .ok imgs →
              (Operation.trim outFormat threshold padding).result imgs = tb.cut padding := by
            intro imgs himgs
            rw [hbox imgs himgs]
            rfl
          obtain ⟨imgs, rs, himgs, hrs, hshown⟩ := cropped_shows
            (fun img hb r hr => cut_eq_ok hr) hanimate fun imgs rs himgs hrs =>
              hcolors rs (hresults himgs (by rw [hcut himgs]; exact hrs))
          exact ⟨rs, hresults himgs (by rw [hcut himgs]; exact hrs), hshown⟩
  | reduceFrames n =>
      obtain ⟨g, hanimate, hg⟩ := reduceFrames_animation hrun
      cases hg
      obtain ⟨imgs, rs, himgs, hrs, hshown⟩ :=
        reduced_shows hanimate fun imgs rs himgs hrs => hcolors rs (hresults himgs hrs)
      exact ⟨rs, hresults himgs hrs, hshown⟩

/-! ## A sample -/

/-- Green at the right over two frames, one kept and one taken back, between transparent ones. -/
def sample : Gif where
  header := #v[0x47, 0x49, 0x46, 0x38, 0x39, 0x61, 2, 0, 1, 0, 0x80, 0, 0]
  global := [255, 0, 0, 0, 255, 0]
  loop := none
  blocks := [
    ⟨some #v[0x21, 0xF9, 4, 0x05, 0, 0, 0, 0], #v[0x2C, 0, 0, 0, 0, 2, 0, 1, 0, 0], [], 2, [1, 0],
      rfl⟩,
    ⟨some #v[0x21, 0xF9, 4, 0x0C, 7, 0, 0, 0], #v[0x2C, 1, 0, 0, 0, 1, 0, 1, 0, 0], [], 2, [1],
      rfl⟩,
    ⟨some #v[0x21, 0xF9, 4, 0x09, 7, 0, 0, 0], #v[0x2C, 1, 0, 0, 0, 1, 0, 1, 0, 0], [], 2, [0],
      rfl⟩]
  length_global := rfl

/-- The right half of the sample. -/
def sampleRight : Gif where
  header := #v[0x47, 0x49, 0x46, 0x38, 0x39, 0x61, 1, 0, 1, 0, 0x70, 0, 0]
  global := []
  loop := none
  blocks := [
    ⟨some #v[0x21, 0xF9, 4, 0x05, 0, 0, 0, 0], #v[0x2C, 0, 0, 0, 0, 1, 0, 1, 0, 0x80],
      [0, 0, 0, 0, 0, 0], 2, [0], rfl⟩,
    ⟨some #v[0x21, 0xF9, 4, 0x0C, 7, 0, 0, 0], #v[0x2C, 0, 0, 0, 0, 1, 0, 1, 0, 0x80],
      [0, 255, 0, 0, 0, 0], 2, [0], rfl⟩,
    ⟨some #v[0x21, 0xF9, 4, 0x09, 7, 0, 0, 0], #v[0x2C, 0, 0, 0, 0, 1, 0, 1, 0, 0x80],
      [0, 0, 0, 0, 0, 0], 2, [0], rfl⟩]
  length_global := rfl

def Output.animation? : Output → Option Gif
  | .animation g => some g
  | .still _ _ => none

theorem eq_animation_of {r : Except Failure Output} {g : Gif}
    (h : r.toOption.bind Output.animation? = some g) : r = .ok (.animation g) := by
  cases r with
  | error e => cases h
  | ok o =>
      cases o with
      | animation g' =>
          have hg : g' = g := Option.some.inj h
          rw [hg]
      | still img format => cases h

theorem fewColors_of {r : Except Failure (List Image)}
    (h : r.toOption.all (fun rs => rs.all fun img => decide img.FewColors) = true) :
    ∀ rs, r = .ok rs → ∀ img ∈ rs, img.FewColors := by
  rintro rs rfl img himg
  exact of_decide_eq_true (List.all_eq_true.mp h img himg)

theorem processed_shows_sample :
    ∃ rs, (Operation.crop "gif" 1 0 1 1).results sample = .ok rs ∧ sampleRight.shown = .ok rs :=
  processed_shows (.crop "gif" 1 0 1 1) sample sampleRight
    (eq_animation_of (by decide +kernel)) (fewColors_of (by decide +kernel))

end Sky.StdImage
