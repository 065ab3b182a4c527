import Sky.Library.Overlay
import Sky.Model.GifWriter

/-! # Composed frames

Composing frames on the screen is drawing layers over each other. -/

namespace Sky.StdImage

open Library

/-! ## Colours -/

/-- Transparent or opaque, nothing between. -/
def NRGBA.OneBit (c : NRGBA) : Prop := c = .clear ∨ c.a = 255

theorem NRGBA.OneBit.eq_clear {c : NRGBA} (h : c.OneBit) (ha : c.a = 0) : c = .clear := by
  rcases h with hclear | hsolid
  · exact hclear
  · rw [ha] at hsolid
    exact absurd hsolid (by decide)

theorem byte_of_double (x : UInt8) : UInt8.ofNat (x.toNat * 257 / 256) = x := by
  have hx := x.toNat_lt
  rw [show x.toNat * 257 / 256 = x.toNat by omega, UInt8.ofNat_toNat]

theorem solid_double : (255 : UInt8).toNat * 257 = 0xffff := by decide

theorem convert_solid (r g b : UInt8) : RGBA.convert ⟨r, g, b, 255⟩ = ⟨r, g, b, 255⟩ := by
  simp only [RGBA.convert, nrgbaModel, solid_double, if_true, byte_of_double]

theorem convert_clear : RGBA.convert ⟨0, 0, 0, 0⟩ = .clear := by decide

/-- A transparent or opaque colour is stored as it is. -/
theorem NRGBA.OneBit.drawn {c : NRGBA} (h : c.OneBit) : c.drawn = c := by
  rcases h with rfl | hsolid
  · decide
  · obtain ⟨r, g, b, a⟩ := c
    subst hsolid
    have hwhole : ∀ x : UInt8, x.toNat * 257 * 255 / 255 = x.toNat * 257 :=
      fun x => Nat.mul_div_cancel _ (by norm_num)
    have hdrawn : NRGBA.drawn ⟨r, g, b, 255⟩ = nrgbaModel (r.toNat * 257 * 255 / 255)
        (g.toNat * 257 * 255 / 255) (b.toNat * 257 * 255 / 255) ((255 : UInt8).toNat * 257) := rfl
    rw [hdrawn, hwhole, hwhole, hwhole]
    simp only [nrgbaModel, solid_double, if_true, byte_of_double]

/-- The colour, if it is one that is drawn. -/
def NRGBA.ink (c : NRGBA) : Option NRGBA := if c.a = 0 then none else some c

theorem NRGBA.ink_getD (c d : NRGBA) : (c.ink.getD d).ink = c.ink.or d.ink := by
  unfold ink
  by_cases ha : c.a = 0 <;> simp [ha]

theorem NRGBA.OneBit.eq_of_ink {c d : NRGBA} (hc : c.OneBit) (hd : d.OneBit) (h : c.ink = d.ink) :
    c = d := by
  unfold ink at h
  by_cases ha : c.a = 0 <;> by_cases hb : d.a = 0
  · rw [hc.eq_clear ha, hd.eq_clear hb]
  · simp [ha, hb] at h
  · simp [ha, hb] at h
  · simpa [ha, hb] using h

/-! ## Rectangles -/

theorem Rectangle.contains_intersect {r s : Rectangle} {x y : ℤ}
    (h : (r.intersect s).Contains x y) : r.Contains x y ∧ s.Contains x y := by
  rw [intersect] at h
  split at h
  · obtain ⟨hlow, hhigh, -⟩ := h
    exact absurd hhigh (not_lt.mpr hlow)
  · simp only [Contains, max_le_iff, lt_min_iff] at h
    obtain ⟨⟨hr, hs⟩, ⟨hr', hs'⟩, ⟨ht, hu⟩, ht', hu'⟩ := h
    exact ⟨⟨hr, hr', ht, ht'⟩, hs, hs', hu, hu'⟩

theorem Rectangle.intersect_contains {r s : Rectangle} {x y : ℤ} (hr : r.Contains x y)
    (hs : s.Contains x y) : (r.intersect s).Contains x y := by
  obtain ⟨hr₁, hr₂, hr₃, hr₄⟩ := hr
  obtain ⟨hs₁, hs₂, hs₃, hs₄⟩ := hs
  have hx : max r.minX s.minX < min r.maxX s.maxX :=
    lt_of_le_of_lt (max_le hr₁ hs₁) (lt_min hr₂ hs₂)
  have hy : max r.minY s.minY < min r.maxY s.maxY :=
    lt_of_le_of_lt (max_le hr₃ hs₃) (lt_min hr₄ hs₄)
  rw [intersect, if_neg]
  · exact ⟨max_le hr₁ hs₁, lt_min hr₂ hs₂, max_le hr₃ hs₃, lt_min hr₄ hs₄⟩
  · simp only [Empty, not_or, not_le]
    exact ⟨hx, hy⟩

/-! ## Images -/

namespace Image

variable {i j : Image} {r : Rectangle} {f : ℤ → ℤ → NRGBA} {x y : ℤ}

@[simp] theorem bounds_make : (make r f).bounds = r := rfl

@[simp] theorem bounds_newNRGBA : (newNRGBA r).bounds = r := rfl

@[simp] theorem bounds_paint (g : ℤ → ℤ → Option NRGBA) : (i.paint r g).bounds = i.bounds := rfl

@[simp] theorem colorAt_newNRGBA : (newNRGBA r).colorAt x y = .clear := ite_self _

theorem colorAt_paint (g : ℤ → ℤ → Option NRGBA) (h : r.Contains x y → i.bounds.Contains x y) :
    (i.paint r g).colorAt x y =
      if r.Contains x y then (g x y).getD (i.colorAt x y) else i.colorAt x y := by
  show (if i.bounds.Contains x y then _ else _) = _
  by_cases hb : i.bounds.Contains x y
  · rw [if_pos hb]
  · rw [if_neg hb, if_neg fun hr => hb (h hr), i.outside x y hb]

/-- Every pixel is transparent or opaque. -/
def OneBit (i : Image) : Prop := ∀ x y, (i.colorAt x y).OneBit

theorem oneBit_newNRGBA (r : Rectangle) : (newNRGBA r).OneBit := fun _ _ => .inl colorAt_newNRGBA

/-- The colour at a point, if one is drawn there. -/
def ink (i : Image) (p : ℤ × ℤ) : Option NRGBA := (i.colorAt p.1 p.2).ink

theorem ink_newNRGBA (r : Rectangle) : (newNRGBA r).ink = fun _ => none := by
  funext p
  rw [ink, colorAt_newNRGBA]
  rfl

end Image

/-! ## One frame -/

/-- The disposal that a value of the field stands for. -/
def disposalOf (disposal : UInt8) : Disposal :=
  if disposal = gifDisposalBackground then .clear
  else if disposal = gifDisposalPrevious then .restore
  else .keep

/-- A frame on a screen. -/
def Paletted.layer (frame : Paletted) (disposal : UInt8) (screen : Rectangle) :
    Layer (ℤ × ℤ) NRGBA where
  region := {p | (frame.rect.intersect screen).Contains p.1 p.2}
  ink p := (frame.pal (frame.colorIndexAt p.1 p.2)).ink
  disposal := disposalOf disposal

/-- Every entry of the palette is transparent or opaque. -/
def Paletted.OneBit (p : Paletted) : Prop := ∀ i, (p.pal i).OneBit

namespace Composer

variable {c : Composer} {frame : Paletted} {disposal : UInt8}

/-- The screen with the frame drawn over it. -/
def drawn (c : Composer) (frame : Paletted) : Image :=
  c.screen.paint (frame.rect.intersect c.screen.bounds) fun x y =>
    (frame.pal (frame.colorIndexAt x y)).ink

theorem compose_fst : (c.compose frame disposal).1 = c.drawn frame := by
  unfold compose
  simp only
  split
  · rfl
  · split <;> rfl

theorem compose_snd : (c.compose frame disposal).2.screen =
    if disposal = gifDisposalBackground then
      (c.drawn frame).paint (frame.rect.intersect c.screen.bounds) fun _ _ => some .clear
    else if disposal = gifDisposalPrevious then
      (c.drawn frame).paint (frame.rect.intersect c.screen.bounds) fun x y =>
        some ((Image.make (frame.rect.intersect c.screen.bounds) c.screen.colorAt).colorAt x y)
    else c.drawn frame := by
  unfold compose
  simp only
  split
  · rfl
  · split
    · rfl
    · rfl

theorem bounds_compose : (c.compose frame disposal).1.bounds = c.screen.bounds ∧
    (c.compose frame disposal).2.screen.bounds = c.screen.bounds := by
  constructor
  · rw [compose_fst]
    rfl
  · rw [compose_snd]
    split
    · rfl
    · split <;> rfl

theorem colorAt_drawn (x y : ℤ) : (c.drawn frame).colorAt x y =
    if (frame.rect.intersect c.screen.bounds).Contains x y then
      (frame.pal (frame.colorIndexAt x y)).ink.getD (c.screen.colorAt x y)
    else c.screen.colorAt x y :=
  Image.colorAt_paint _ fun h => (Rectangle.contains_intersect h).2

theorem colorAt_paint_drawn (g : ℤ → ℤ → Option NRGBA) (x y : ℤ) :
    ((c.drawn frame).paint (frame.rect.intersect c.screen.bounds) g).colorAt x y =
      if (frame.rect.intersect c.screen.bounds).Contains x y then
        (g x y).getD ((c.drawn frame).colorAt x y)
      else c.screen.colorAt x y := by
  have hbounds : (frame.rect.intersect c.screen.bounds).Contains x y →
      (c.drawn frame).bounds.Contains x y := fun h => (Rectangle.contains_intersect h).2
  rw [Image.colorAt_paint g hbounds]
  by_cases hr : (frame.rect.intersect c.screen.bounds).Contains x y
  · rw [if_pos hr, if_pos hr]
  · rw [if_neg hr, if_neg hr, colorAt_drawn, if_neg hr]

/-- What a frame shows is its layer over the screen. -/
theorem ink_compose : (c.compose frame disposal).1.ink =
    (frame.layer disposal c.screen.bounds).draw c.screen.ink := by
  funext p
  rw [compose_fst, Image.ink, colorAt_drawn, Layer.draw]
  by_cases hr : (frame.rect.intersect c.screen.bounds).Contains p.1 p.2
  · rw [if_pos hr, if_pos (show p ∈ (frame.layer disposal c.screen.bounds).region from hr)]
    exact NRGBA.ink_getD _ _
  · rw [if_neg hr, if_neg (show p ∉ (frame.layer disposal c.screen.bounds).region from hr)]
    rfl

theorem oneBit_drawn (hscreen : c.screen.OneBit) (hframe : frame.OneBit) :
    (c.drawn frame).OneBit := by
  intro x y
  rw [colorAt_drawn]
  split
  · unfold NRGBA.ink
    split
    · exact hscreen x y
    · exact hframe _
  · exact hscreen x y

/-- The area that is taken back holds what it held. -/
theorem screen_compose_previous (h : disposal = gifDisposalPrevious) :
    (c.compose frame disposal).2.screen = c.screen := by
  have hne : ¬ disposal = gifDisposalBackground := by
    rw [h]
    decide
  apply Image.ext
  · exact bounds_compose.2
  · funext x y
    rw [compose_snd, if_neg hne, if_pos h, colorAt_paint_drawn]
    by_cases hr : (frame.rect.intersect c.screen.bounds).Contains x y
    · rw [if_pos hr]
      exact if_pos hr
    · rw [if_neg hr]

/-- The next screen is what the disposal leaves of the layer. -/
theorem ink_screen_compose : (c.compose frame disposal).2.screen.ink =
    (frame.layer disposal c.screen.bounds).after c.screen.ink := by
  by_cases hback : disposal = gifDisposalBackground
  · have hdisposal : (frame.layer disposal c.screen.bounds).disposal = .clear := if_pos hback
    funext p
    rw [Layer.after, hdisposal, compose_snd, if_pos hback, Image.ink, colorAt_paint_drawn]
    by_cases hr : (frame.rect.intersect c.screen.bounds).Contains p.1 p.2
    · rw [if_pos hr]
      exact (if_pos hr).symm
    · rw [if_neg hr]
      exact (if_neg hr).symm
  · by_cases hprev : disposal = gifDisposalPrevious
    · have hdisposal : (frame.layer disposal c.screen.bounds).disposal = .restore :=
        (if_neg hback).trans (if_pos hprev)
      rw [Layer.after, hdisposal, screen_compose_previous hprev]
    · have hdisposal : (frame.layer disposal c.screen.bounds).disposal = .keep :=
        (if_neg hback).trans (if_neg hprev)
      rw [Layer.after, hdisposal, compose_snd, if_neg hback, if_neg hprev, ← ink_compose, compose_fst]

theorem oneBit_screen_compose (hscreen : c.screen.OneBit) (hframe : frame.OneBit) :
    (c.compose frame disposal).2.screen.OneBit := by
  by_cases hprev : disposal = gifDisposalPrevious
  · rw [screen_compose_previous hprev]
    exact hscreen
  · rw [compose_snd, if_neg hprev]
    split
    · intro x y
      rw [colorAt_paint_drawn]
      split
      · exact .inl rfl
      · exact hscreen x y
    · exact oneBit_drawn hscreen hframe

end Composer

/-! ## Decoded frames -/

theorem oneBit_colorTable (table : List UInt8) : ∀ c ∈ colorTable table, c.convert.OneBit := by
  fun_induction colorTable table with
  | case1 r g b rest ih =>
      intro c hc
      rcases List.mem_cons.mp hc with rfl | hc
      · rw [convert_solid]
        exact .inr rfl
      · exact ih c hc
  | case2 => simp

theorem oneBit_transparentAt {palette : List RGBA} (h : ∀ c ∈ palette, c.convert.OneBit) (i : ℕ) :
    ∀ c ∈ transparentAt palette i, c.convert.OneBit := by
  intro c hc
  have hclear : RGBA.convert ⟨0, 0, 0, 0⟩ = .clear := convert_clear
  unfold transparentAt at hc
  split at hc
  · rcases List.mem_or_eq_of_mem_set hc with hc | rfl
    · exact h c hc
    · exact .inl hclear
  · rcases List.mem_append.mp hc with hc | hc
    · exact h c hc
    · rw [List.eq_of_mem_replicate hc]
      exact .inl hclear

theorem oneBit_palette (data : Gif) (b : Block) : ∀ c ∈ data.palette b, c.convert.OneBit := by
  unfold Gif.palette
  cases b.gce with
  | none => exact oneBit_colorTable _
  | some gce =>
      simp only
      split
      · exact oneBit_transparentAt (oneBit_colorTable _) _
      · exact oneBit_colorTable _

theorem Paletted.oneBit_of_palette {p : Paletted} (h : ∀ c ∈ p.palette, c.convert.OneBit) :
    p.OneBit := by
  intro i
  unfold Paletted.pal
  cases hi : p.palette[i.toNat]? with
  | none => exact .inl rfl
  | some c => exact h c (List.mem_of_getElem? hi)

/-- What a decoded frame is made of. -/
theorem decodeFrame_eq_ok {data : Gif} {b : Block} {p : Paletted} (h : decodeFrame data b = .ok p) :
    p.rect = b.rect ∧ p.palette = data.palette b ∧ p.pix = b.pixels := by
  unfold decodeFrame at h
  simp only at h
  split_ifs at h
  cases h
  exact ⟨rfl, rfl, rfl⟩

theorem oneBit_decodeFrame {data : Gif} {b : Block} {p : Paletted}
    (h : decodeFrame data b = .ok p) : p.OneBit := by
  apply Paletted.oneBit_of_palette
  rw [(decodeFrame_eq_ok h).2.1]
  exact oneBit_palette data b

/-! ## Whole animations -/

/-- What each of the frames shows. -/
def composeAll : Composer → List (Paletted × UInt8) → List Image
  | _, [] => []
  | c, q :: qs => (c.compose q.1 q.2).1 :: composeAll (c.compose q.1 q.2).2 qs

/-- The layers of frames on a screen. -/
def layers (screen : Rectangle) (qs : List (Paletted × UInt8)) : List (Layer (ℤ × ℤ) NRGBA) :=
  qs.map fun q => q.1.layer q.2 screen

theorem ink_composeAll (qs : List (Paletted × UInt8)) (c : Composer) :
    (composeAll c qs).map Image.ink = Layer.shows (layers c.screen.bounds qs) c.screen.ink := by
  induction qs generalizing c with
  | nil => rfl
  | cons q qs ih =>
      have hbounds : (c.compose q.1 q.2).2.screen.bounds = c.screen.bounds :=
        Composer.bounds_compose.2
      have hrest := ih (c.compose q.1 q.2).2
      rw [hbounds, Composer.ink_screen_compose] at hrest
      rw [composeAll, List.map_cons, Composer.ink_compose, hrest]
      rfl

theorem length_composeAll (qs : List (Paletted × UInt8)) (c : Composer) :
    (composeAll c qs).length = qs.length := by
  induction qs generalizing c with
  | nil => rfl
  | cons q qs ih => rw [composeAll, List.length_cons, ih, List.length_cons]

theorem bounds_composeAll (qs : List (Paletted × UInt8)) (c : Composer) :
    ∀ img ∈ composeAll c qs, img.bounds = c.screen.bounds := by
  induction qs generalizing c with
  | nil => simp [composeAll]
  | cons q qs ih =>
      intro img himg
      rcases List.mem_cons.mp himg with rfl | himg
      · exact Composer.bounds_compose.1
      · exact (ih _ img himg).trans Composer.bounds_compose.2

theorem oneBit_composeAll (qs : List (Paletted × UInt8)) (c : Composer) (hc : c.screen.OneBit)
    (hqs : ∀ q ∈ qs, q.1.OneBit) : ∀ img ∈ composeAll c qs, img.OneBit := by
  induction qs generalizing c with
  | nil => simp [composeAll]
  | cons q qs ih =>
      have hq := hqs q List.mem_cons_self
      intro img himg
      rcases List.mem_cons.mp himg with rfl | himg
      · rw [Composer.compose_fst]
        exact Composer.oneBit_drawn hc hq
      · exact ih _ (Composer.oneBit_screen_compose hc hq)
          (fun p hp => hqs p (List.mem_cons_of_mem _ hp)) img himg

/-! ## Frames in order -/

/-- The composed images in order, the first of them the `i`-th. -/
def foldImages {σ : Type} (fn : ℕ → Image → σ → Except Failure σ) :
    ℕ → List Image → σ → Except Failure σ
  | _, [], st => .ok st
  | i, img :: imgs, st => do
      let st ← fn i img st
      foldImages fn (i + 1) imgs st

/-- The frames and disposals that blocks decode to. -/
def Decodes (data : Gif) (fs : List (FrameInfo × Block)) (qs : List (Paletted × UInt8)) : Prop :=
  List.Forall₂ (fun f q => decodeFrame data f.2 = .ok q.1 ∧ f.1.disposal = q.2) fs qs

theorem Decodes.oneBit {data : Gif} {fs : List (FrameInfo × Block)} {qs : List (Paletted × UInt8)}
    (h : Decodes data fs qs) : ∀ q ∈ qs, q.1.OneBit := by
  induction h with
  | nil => simp
  | cons hq _ ih =>
      intro p hp
      rcases List.mem_cons.mp hp with rfl | hp
      · exact oneBit_decodeFrame hq.1
      · exact ih p hp

/-- Frames are handed on as they are composed. -/
theorem eachFrameFrom_eq_ok {σ : Type} {op : String} {data : Gif}
    {fn : ℕ → Image → σ → Except Failure σ} {i : ℕ} {c : Composer} {fs : List (FrameInfo × Block)}
    {st st' : σ} (hi : i ≤ imageMaxFrames) :
    eachFrameFrom op data fn i c fs st = .ok st' ↔ ∃ qs, Decodes data fs qs ∧
      i + fs.length ≤ imageMaxFrames ∧ foldImages fn i (composeAll c qs) st = .ok st' := by
  induction fs generalizing i c st with
  | nil =>
      constructor
      · intro h
        exact ⟨[], .nil, hi, h⟩
      · rintro ⟨qs, hqs, -, h⟩
        cases hqs
        exact h
  | cons f fs ih =>
      obtain ⟨f, b⟩ := f
      rw [eachFrameFrom, List.length_cons]
      by_cases hmax : i ≥ imageMaxFrames
      · rw [if_pos hmax]
        constructor
        · intro h
          cases h
        · rintro ⟨_, -, hle, -⟩
          omega
      · rw [if_neg hmax]
        cases hdec : decodeFrame data b with
        | error e =>
            constructor
            · intro h
              cases h
            · rintro ⟨qs, hqs, -, -⟩
              cases hqs with
              | cons hq _ => exact absurd (hdec.symm.trans hq.1) (by simp)
        | ok frame =>
            simp only
            cases hfn : fn i (c.compose frame f.disposal).1 st with
            | error e =>
                constructor
                · intro h
                  cases h
                · rintro ⟨qs, hqs, -, h⟩
                  cases hqs with
                  | cons hq _ =>
                      obtain ⟨hframe, hdisposal⟩ := hq
                      rw [hdec] at hframe
                      cases hframe
                      rw [composeAll, foldImages, ← hdisposal, hfn] at h
                      cases h
            | ok st₁ =>
                have hrest := @ih (i + 1) (c.compose frame f.disposal).2 st₁ (by omega)
                constructor
                · intro h
                  obtain ⟨qs, hqs, hle, hfold⟩ := hrest.mp h
                  refine ⟨(frame, f.disposal) :: qs, .cons ⟨hdec, rfl⟩ hqs, by omega, ?_⟩
                  rw [composeAll, foldImages, hfn]
                  exact hfold
                · rintro ⟨qs, hqs, hle, h⟩
                  cases hqs with
                  | cons hq hqs =>
                      obtain ⟨hframe, hdisposal⟩ := hq
                      rw [hdec] at hframe
                      cases hframe
                      rw [composeAll, foldImages, ← hdisposal, hfn] at h
                      exact hrest.mpr ⟨_, hqs, by omega, h⟩

end Sky.StdImage
