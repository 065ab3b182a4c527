import Sky.Verification.Gif.Quantising

/-! # A processed animation shows the processed frames

Every frame is written whole with the disposal of its source frame. What the output has kept from
earlier frames lies within what the source has kept, so it is never seen. -/

namespace Sky.StdImage

open Library

/-! ## What a GIF shows -/

/-- What a scan without limits finds. -/
def Gif.scanned (data : Gif) : ScanResult :=
  ⟨data.width, data.height, data.loop.elim (-1) fun l => le16 l.1 l.2, data.blocks.map Block.info⟩

/-- The composed frames of a GIF. -/
def Gif.shown (data : Gif) : Except Failure (List Image) :=
  gifEachFrame "image" data data.scanned (fun _ img shown => .ok (shown ++ [img])) []

/-- The blocks with what the scan says of them. -/
def Gif.frames (data : Gif) : List (FrameInfo × Block) := data.blocks.map fun b => (b.info, b)

theorem zip_frames (bs : List Block) :
    (bs.map Block.info).zip bs = bs.map fun b => (b.info, b) := by
  induction bs with
  | nil => rfl
  | cons b bs ih => rw [List.map_cons, List.zip_cons_cons, ih, List.map_cons]

theorem scanFrames_eq_ok {op : String} {data : Gif} {lim : ScanLimits} (hstop : lim.stopAfter = 0)
    {frames frames' : List FrameInfo} {bs : List Block}
    (h : scanFrames op data lim frames bs = .ok frames') : frames' = frames ++ bs.map Block.info := by
  induction bs generalizing frames with
  | nil =>
      cases h
      rw [List.map_nil, List.append_nil]
  | cons b bs ih =>
      rw [scanFrames] at h
      split at h
      · cases h
      · split at h
        · cases h
        · rw [if_neg (by omega)] at h
          rw [ih h, List.map_cons, List.append_assoc, List.singleton_append]

theorem gifScan_eq_ok {op : String} {data : Gif} {lim : ScanLimits} {s : ScanResult}
    (hstop : lim.stopAfter = 0) (h : gifScan op data lim = .ok s) : s = data.scanned := by
  unfold gifScan at h
  simp only at h
  split at h
  · cases h
  · split at h
    · cases h
    · cases hcheck : imageCheckPixels op data.width data.height with
      | error e =>
          rw [hcheck] at h
          cases h
      | ok u =>
          cases hframes : scanFrames op data lim [] data.blocks with
          | error e =>
              rw [hcheck, hframes] at h
              cases h
          | ok frames =>
              simp only [hcheck, hframes, bind, Except.bind] at h
              split at h
              · cases h
              · cases h
                rw [scanFrames_eq_ok hstop hframes]
                rfl

theorem foldImages_collect (imgs : List Image) (i : ℕ) (shown : List Image) :
    foldImages (fun _ img shown => .ok (shown ++ [img])) i imgs shown = .ok (shown ++ imgs) := by
  induction imgs generalizing i shown with
  | nil => rw [foldImages, List.append_nil]
  | cons img imgs ih =>
      rw [foldImages]
      exact (ih (i + 1) (shown ++ [img])).trans (by rw [List.append_assoc, List.singleton_append])

theorem shown_eq_ok {data : Gif} {imgs : List Image} : data.shown = .ok imgs ↔
    ∃ qs, Decodes data data.frames qs ∧ data.frames.length ≤ imageMaxFrames ∧
      composeAll (newGifComposer data.width data.height) qs = imgs := by
  rw [Gif.shown, gifEachFrame, Gif.scanned]
  simp only
  rw [zip_frames, eachFrameFrom_eq_ok (Nat.zero_le _)]
  refine exists_congr fun qs => and_congr_right fun _ => ?_
  rw [Nat.zero_add, foldImages_collect, List.nil_append, Except.ok.injEq]
  rfl

/-- Whatever a fold is handed are the composed frames. -/
theorem gifEachFrame_eq_ok {σ : Type} {op : String} {data : Gif}
    {fn : ℕ → Image → σ → Except Failure σ} {st st' : σ} :
    gifEachFrame op data data.scanned fn st = .ok st' ↔
      ∃ imgs, data.shown = .ok imgs ∧ foldImages fn 0 imgs st = .ok st' := by
  rw [gifEachFrame, Gif.scanned]
  simp only
  rw [zip_frames, eachFrameFrom_eq_ok (Nat.zero_le _), Nat.zero_add]
  constructor
  · rintro ⟨qs, hqs, hlen, hfold⟩
    exact ⟨_, shown_eq_ok.mpr ⟨qs, hqs, hlen, rfl⟩, hfold⟩
  · rintro ⟨imgs, himgs, hfold⟩
    obtain ⟨qs, hqs, hlen, rfl⟩ := shown_eq_ok.mp himgs
    exact ⟨qs, hqs, hlen, hfold⟩

/-! ## What an animation is written as -/

/-- The results of the frames that are kept, the first of the images the `i`-th. -/
def resultsFrom (fn : Image → Except Failure Image) (keep : ℕ → Bool) :
    ℕ → List Image → Except Failure (List Image)
  | _, [] => .ok []
  | i, img :: imgs =>
      if keep i then do
        let r ← fn img
        let rs ← resultsFrom fn keep (i + 1) imgs
        .ok (r :: rs)
      else resultsFrom fn keep (i + 1) imgs

/-- The header is for images of the size of the first. -/
def Headed (g : Gif) (ps : List (Image × UInt8)) : Prop :=
  ∀ p ∈ ps.head?, ∃ loop, g.header = (newGifWriter p.1.bounds.dx p.1.bounds.dy loop).header

/-- The blocks are the images in order, with their disposals. -/
def Holding (g : Gif) (ps : List (Image × UInt8)) : Prop :=
  List.Forall₂ (fun b p => ∃ delay,
    frameBlock (gifQuantise p.1).1 (gifQuantise p.1).2 delay p.2 = .ok b) g.blocks ps

/-- The images so far, the last of them not written yet. -/
def Writing (a : Animation) (ps : List (Image × UInt8)) : Prop :=
  a.pending = none ∧ a.g = none ∧ ps = [] ∨
  ∃ qs img g, ps = qs ++ [(img, a.pendingDisposal)] ∧ a.pending = some (gifQuantise img) ∧
    a.g = some g ∧ Headed g ps ∧ Holding g qs

/-- The images so far are all written. -/
def Flushed (a : Animation) (ps : List (Image × UInt8)) : Prop :=
  a.pending = none ∧ (a.g = none ∧ ps = [] ∨ ∃ g, a.g = some g ∧ ps ≠ [] ∧ Headed g ps ∧ Holding g ps)

theorem Writing.flush {op : String} {a a' : Animation} {ps : List (Image × UInt8)}
    (h : Writing a ps) (hflush : a.flush op = .ok a') : Flushed a' ps := by
  unfold Animation.flush at hflush
  rcases h with ⟨hpending, hg, rfl⟩ | ⟨qs, img, g, rfl, hpending, hg, hhead, hhold⟩
  · rw [hpending] at hflush
    cases hflush
    exact ⟨hpending, .inl ⟨hg, rfl⟩⟩
  · rw [hpending] at hflush
    simp only [hg] at hflush
    unfold Gif.frame at hflush
    cases hblock : frameBlock (gifQuantise img).1 (gifQuantise img).2 a.pendingDelay
        a.pendingDisposal with
    | error e =>
        rw [hblock] at hflush
        cases hflush
    | ok b =>
        rw [hblock] at hflush
        cases hflush
        refine ⟨rfl, .inr ⟨_, rfl, by simp, hhead, ?_⟩⟩
        exact List.rel_append hhold (.cons ⟨_, hblock⟩ .nil)

section

variable {op : String} {s : ScanResult} {fn : Image → Except Failure Image}
  {keep : Option (ℕ → Bool)} {forceBackground : Bool} {i : ℕ} {img : Image} {a a' : Animation}
  {ps : List (Image × UInt8)}

/-- The disposal that the `i`-th frame is written with. -/
def writtenDisposal (s : ScanResult) (forceBackground : Bool) (i : ℕ) : UInt8 :=
  if forceBackground then gifDisposalBackground else (s.frames[i]?.map FrameInfo.disposal).getD 0

theorem Writing.animateFrame (h : Writing a ps)
    (hstep : animateFrame op s fn keep forceBackground i img a = .ok a') :
    if keep.all fun k => k i then
      ∃ r, fn img = .ok r ∧ Writing a' (ps ++ [(r, writtenDisposal s forceBackground i)])
    else Writing a' ps := by
  unfold StdImage.animateFrame at hstep
  cases hf : s.frames[i]? with
  | none =>
      rw [hf] at hstep
      cases hstep
  | some f =>
      rw [hf] at hstep
      simp only at hstep
      have hkeep : keep.any (fun k => !k i) = true ↔ ¬ keep.all (fun k => k i) = true := by
        cases keep <;> simp
      by_cases hdrop : keep.any (fun k => !k i) = true
      · rw [if_pos hdrop] at hstep
        cases hstep
        rw [if_neg (hkeep.mp hdrop)]
        rcases h with ⟨hpending, hg, hps⟩ | ⟨qs, r, g, hps, hpending, hg, hhead, hhold⟩
        · exact .inl ⟨hpending, hg, hps⟩
        · exact .inr ⟨qs, r, g, hps, hpending, hg, hhead, hhold⟩
      · rw [if_neg hdrop] at hstep
        rw [if_pos (not_not.mp fun hall => hdrop (hkeep.mpr hall))]
        cases hflush : a.flush op with
        | error e =>
            rw [hflush] at hstep
            cases hstep
        | ok a₁ =>
            cases hr : fn img with
            | error e =>
                rw [hflush, hr] at hstep
                cases hstep
            | ok r =>
                rw [hflush, hr] at hstep
                cases hstep
                refine ⟨r, rfl, .inr ⟨ps, r, _, ?_, rfl, rfl, ?_, ?_⟩⟩
                · rw [writtenDisposal, hf]
                  rfl
                · obtain ⟨-, ⟨hg, rfl⟩ | ⟨g, hg, hne, hhead, -⟩⟩ := h.flush hflush
                  · intro p hp
                    cases hp
                    exact ⟨s.loopCount, by rw [hg]; rfl⟩
                  · intro p hp
                    rw [List.head?_append_of_ne_nil _ hne] at hp
                    rw [hg]
                    exact hhead p hp
                · obtain ⟨-, ⟨hg, rfl⟩ | ⟨g, hg, -, -, hhold⟩⟩ := h.flush hflush
                  · rw [hg]
                    exact .nil
                  · rw [hg]
                    exact hhold

/-- The results of the frames, each with its disposal, are written one after the other. -/
theorem Writing.run {imgs : List Image} (h : Writing a ps)
    (hrun : foldImages (StdImage.animateFrame op s fn keep forceBackground) i imgs a = .ok a') :
    ∃ rs : List (Image × UInt8), resultsFrom fn (fun j => keep.all fun k => k j) i imgs =
        .ok (rs.map Prod.fst) ∧ Writing a' (ps ++ rs) ∧ rs.length ≤ imgs.length ∧
      (∀ r ∈ rs, ∃ j, r.2 = writtenDisposal s forceBackground j) ∧
      (keep = none → rs.map Prod.snd =
        (List.range' i imgs.length).map (writtenDisposal s forceBackground)) := by
  induction imgs generalizing i a ps with
  | nil =>
      cases hrun
      exact ⟨[], rfl, by rwa [List.append_nil], le_rfl, by simp, fun _ => rfl⟩
  | cons img imgs ih =>
      rw [foldImages] at hrun
      cases hstep : StdImage.animateFrame op s fn keep forceBackground i img a with
      | error e =>
          rw [hstep] at hrun
          cases hrun
      | ok a₁ =>
          rw [hstep] at hrun
          have hnext := h.animateFrame hstep
          rw [resultsFrom]
          by_cases hkeep : (keep.all fun k => k i) = true
          · rw [if_pos hkeep] at hnext ⊢
            obtain ⟨r, hr, hnext⟩ := hnext
            obtain ⟨rs, hrs, hwriting, hlen, hall, hdisposals⟩ := ih hnext hrun
            refine ⟨(r, writtenDisposal s forceBackground i) :: rs, ?_, ?_, ?_, ?_, ?_⟩
            · rw [hr, hrs]
              rfl
            · rwa [List.append_assoc, List.singleton_append] at hwriting
            · exact Nat.succ_le_succ hlen
            · intro q hq
              rcases List.mem_cons.mp hq with rfl | hq
              · exact ⟨i, rfl⟩
              · exact hall q hq
            · intro hnone
              rw [List.map_cons, hdisposals hnone]
              rfl
          · rw [if_neg hkeep] at hnext ⊢
            obtain ⟨rs, hrs, hwriting, hlen, hall, hdisposals⟩ := ih hnext hrun
            refine ⟨rs, hrs, hwriting, hlen.trans (Nat.le_succ _), hall, ?_⟩
            intro hnone
            rw [hnone] at hkeep
            exact absurd rfl hkeep

/-- What is written are the results of the composed frames. -/
theorem gifAnimate_eq_ok {data out : Gif}
    (h : gifAnimate op data data.scanned fn keep forceBackground = .ok out) :
    ∃ imgs, ∃ rs : List (Image × UInt8), data.shown = .ok imgs ∧
      resultsFrom fn (fun j => keep.all fun k => k j) 0 imgs = .ok (rs.map Prod.fst) ∧
      rs ≠ [] ∧ Headed out rs ∧ Holding out rs ∧ rs.length ≤ imgs.length ∧
      (∀ r ∈ rs, ∃ j, r.2 = writtenDisposal data.scanned forceBackground j) ∧
      (keep = none → rs.map Prod.snd =
        (List.range' 0 imgs.length).map (writtenDisposal data.scanned forceBackground)) := by
  unfold gifAnimate at h
  cases heach : gifEachFrame op data data.scanned
      (StdImage.animateFrame op data.scanned fn keep forceBackground) ⟨none, none, 0, 0⟩ with
  | error e =>
      rw [heach] at h
      cases h
  | ok a =>
      obtain ⟨imgs, himgs, hfold⟩ := gifEachFrame_eq_ok.mp heach
      have hstart : Writing ⟨none, none, 0, 0⟩ [] := .inl ⟨rfl, rfl, rfl⟩
      obtain ⟨rs, hrs, hwriting, hlen, hall, hdisposals⟩ := hstart.run hfold
      rw [List.nil_append] at hwriting
      cases hflush : a.flush op with
      | error e =>
          simp only [heach, hflush, bind, Except.bind] at h
          cases h
      | ok a₁ =>
          simp only [heach, hflush, bind, Except.bind] at h
          obtain ⟨-, ⟨hg, -⟩ | ⟨g, hg, hne, hhead, hhold⟩⟩ := hwriting.flush hflush
          · rw [hg] at h
            cases h
          · rw [hg] at h
            cases h
            exact ⟨imgs, rs, himgs, hrs, hne, hhead, hhold, hlen, hall, hdisposals⟩

end

/-! ## Reading the output -/

/-- The points of a `w × h` image. -/
abbrev Pixel (w h : ℕ) := {p : ℤ × ℤ // (Rectangle.rect 0 0 w h).Contains p.1 p.2}

/-- The opaque colours of an image at its points. -/
def Image.inkOn (w h : ℕ) (img : Image) : Pixel w h → Option NRGBA := img.ink ∘ Subtype.val

/-- An image that covers the screen, with its disposal. -/
def pictureLayer (w h : ℕ) (p : Image × UInt8) : Layer (Pixel w h) NRGBA :=
  ⟨Set.univ, p.1.inkOn w h, disposalOf p.2⟩

/-- An image that is written exactly. -/
structure Fits (w h : ℕ) (p : Image × UInt8) : Prop where
  bounds : p.1.bounds = .rect 0 0 w h
  oneBit : p.1.OneBit
  few : p.1.FewColors
  disposal : p.2 &&& 7 = p.2

section

variable {out : Gif} {ps : List (Image × UInt8)} {w h : ℕ}

theorem size_of_headed (hhead : Headed out ps) (hne : ps ≠ []) (hfits : ∀ p ∈ ps, Fits w h p)
    (hw : w < 65536) (hh : h < 65536) : out.width = w ∧ out.height = h := by
  obtain ⟨p, rest, rfl⟩ := List.exists_cons_of_ne_nil hne
  obtain ⟨loop, hheader⟩ := hhead p rfl
  have hb := (hfits p List.mem_cons_self).bounds
  have hdx : p.1.bounds.dx = w := by
    rw [hb]
    simp [Rectangle.rect, Rectangle.dx]
  have hdy : p.1.bounds.dy = h := by
    rw [hb]
    simp [Rectangle.rect, Rectangle.dy]
  rw [hdx, hdy] at hheader
  unfold Gif.width Gif.height
  rw [hheader]
  exact ⟨le16_byte hw, le16_byte hh⟩

/-- The blocks decode to frames that are layers of the images. -/
theorem decodes_of_holding {bs : List Block} (hsize : out.width = w ∧ out.height = h)
    (hw : w < 65536) (hh : h < 65536) (hfits : ∀ p ∈ ps, Fits w h p)
    (hhold : List.Forall₂ (fun b p => ∃ delay,
      frameBlock (gifQuantise p.1).1 (gifQuantise p.1).2 delay p.2 = .ok b) bs ps) :
    ∃ qs, Decodes out (bs.map fun b => (b.info, b)) qs ∧
      (layers (.rect 0 0 w h) qs).map (Layer.on Subtype.val) = ps.map (pictureLayer w h) := by
  induction hhold with
  | nil => exact ⟨[], .nil, rfl⟩
  | @cons b p bs ps hblock _ ih =>
      obtain ⟨qs, hqs, hlayers⟩ := ih fun p hp => hfits p (List.mem_cons_of_mem _ hp)
      obtain ⟨delay, hblock⟩ := hblock
      have hp := hfits p List.mem_cons_self
      have hwritten := written_of_frameBlock hblock
      have hexact := exact_gifQuantise hp.bounds hp.oneBit hp.few
      obtain ⟨q, hdecode, hrect, hcolor⟩ :=
        decodeFrame_written hwritten hexact hp.bounds hw hh hsize
      have hdisposal : b.info.disposal = p.2 := by
        obtain ⟨gce, hgce, -, -, hshift, -⟩ := hwritten.gce
        rw [Block.info, hgce]
        exact hshift.trans hp.disposal
      refine ⟨(q, p.2) :: qs, .cons ⟨hdecode, hdisposal⟩ hqs, ?_⟩
      have hlayer : (q.layer p.2 (.rect 0 0 w h)).on Subtype.val = pictureLayer w h p := by
        have hregion : Set.preimage (Subtype.val : Pixel w h → ℤ × ℤ)
            {x | (q.rect.intersect (.rect 0 0 w h)).Contains x.1 x.2} = Set.univ := by
          rw [hrect, hp.bounds]
          exact Set.eq_univ_of_forall fun x => Rectangle.intersect_contains x.2 x.2
        have hink : (fun x : ℤ × ℤ => (q.pal (q.colorIndexAt x.1 x.2)).ink) ∘
            (Subtype.val : Pixel w h → ℤ × ℤ) = p.1.inkOn w h := by
          funext x
          show (q.pal (q.colorIndexAt x.1.1 x.1.2)).ink = (p.1.colorAt x.1.1 x.1.2).ink
          rw [hcolor _ _ (by rw [hp.bounds]; exact x.2)]
        rw [Paletted.layer, Layer.on, pictureLayer, hregion, hink]
      rw [layers, List.map_cons, List.map_cons, hlayer, List.map_cons]
      exact congrArg _ hlayers

/-- Images of one size are known by their inks. -/
theorem images_eq {is js : List Image}
    (hi : ∀ i ∈ is, i.bounds = .rect 0 0 w h ∧ i.OneBit)
    (hj : ∀ j ∈ js, j.bounds = .rect 0 0 w h ∧ j.OneBit)
    (hink : is.map (Image.inkOn w h) = js.map (Image.inkOn w h)) : is = js := by
  induction is generalizing js with
  | nil => exact (List.map_eq_nil_iff.mp hink.symm).symm
  | cons i is ih =>
      cases js with
      | nil => cases hink
      | cons j js =>
          rw [List.map_cons, List.map_cons, List.cons.injEq] at hink
          have hrest := ih (fun k hk => hi k (List.mem_cons_of_mem _ hk))
            (fun k hk => hj k (List.mem_cons_of_mem _ hk)) hink.2
          obtain ⟨hib, hione⟩ := hi i List.mem_cons_self
          obtain ⟨hjb, hjone⟩ := hj j List.mem_cons_self
          have hij : i = j := by
            apply Image.ext
            · rw [hib, hjb]
            · funext x y
              by_cases hxy : (Rectangle.rect 0 0 w h).Contains x y
              · have hat := congrFun hink.1 ⟨(x, y), hxy⟩
                exact (hione x y).eq_of_ink (hjone x y) hat
              · rw [i.outside x y (by rwa [hib]), j.outside x y (by rwa [hjb])]
          rw [hij, hrest]

/-- The output shows its images, if layers of the images show the images. -/
theorem shown_of_holding (hhead : Headed out ps) (hhold : Holding out ps) (hne : ps ≠ [])
    (hlen : ps.length ≤ imageMaxFrames) (hfits : ∀ p ∈ ps, Fits w h p) (hw : w < 65536)
    (hh : h < 65536) (hshows : Layer.shows (ps.map (pictureLayer w h)) (fun _ => none) =
      ps.map fun p => p.1.inkOn w h) : out.shown = .ok (ps.map Prod.fst) := by
  have hsize := size_of_headed hhead hne hfits hw hh
  obtain ⟨qs, hqs, hlayers⟩ := decodes_of_holding hsize hw hh hfits hhold
  have hblocks : out.frames.length ≤ imageMaxFrames := by
    rw [Gif.frames, List.length_map, hhold.length_eq]
    exact hlen
  refine shown_eq_ok.mpr ⟨qs, hqs, hblocks, ?_⟩
  rw [hsize.1, hsize.2]
  have hscreen : (newGifComposer w h).screen = Image.newNRGBA (.rect 0 0 w h) := rfl
  apply images_eq
  · intro i hi
    refine ⟨bounds_composeAll qs _ i hi, ?_⟩
    exact oneBit_composeAll qs _ (Image.oneBit_newNRGBA _) hqs.oneBit i hi
  · intro j hj
    obtain ⟨p, hp, rfl⟩ := List.mem_map.mp hj
    exact ⟨(hfits p hp).bounds, (hfits p hp).oneBit⟩
  · have hink := ink_composeAll qs (newGifComposer w h)
    rw [hscreen, Image.ink_newNRGBA, Image.bounds_newNRGBA] at hink
    calc (composeAll (newGifComposer w h) qs).map (Image.inkOn w h)
        = ((composeAll (newGifComposer w h) qs).map Image.ink).map (· ∘ Subtype.val) := by
          rw [List.map_map]
          rfl
      _ = Layer.shows ((layers (.rect 0 0 w h) qs).map (Layer.on Subtype.val)) (fun _ => none) := by
          rw [hink, Layer.shows_on]
          rfl
      _ = ps.map fun p => p.1.inkOn w h := by rw [hlayers, hshows]
      _ = (ps.map Prod.fst).map (Image.inkOn w h) := by
          rw [List.map_map]
          rfl

end

end Sky.StdImage
