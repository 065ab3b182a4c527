import Sky.Verification.Gif.Composing

/-! # Exact palettes

An image with few colours is written with a palette of its own colours, and the frame that is read
back shows the image. -/

namespace Sky.StdImage

/-! ## Points -/

theorem points_getElem? {w h x y : ℕ} (hx : x < w) (hy : y < h) :
    (points w h)[y * w + x]? = some ((x : ℤ), (y : ℤ)) := by
  have hlt : y * w + x < w * h := by
    calc y * w + x < y * w + w := by omega
      _ = (y + 1) * w := by ring
      _ ≤ h * w := Nat.mul_le_mul_right w hy
      _ = w * h := Nat.mul_comm h w
  have hmod : (y * w + x) % w = x := by
    rw [Nat.add_comm, Nat.add_mul_mod_self_right, Nat.mod_eq_of_lt hx]
  have hdiv : (y * w + x) / w = y := by
    rw [Nat.add_comm, Nat.add_mul_div_right x y (by omega), Nat.div_eq_of_lt hx, Nat.zero_add]
  rw [points, List.getElem?_map, List.getElem?_range hlt, Option.map_some, hmod, hdiv]

theorem contains_rect_zero {w h : ℕ} {x y : ℤ} :
    (Rectangle.rect 0 0 w h).Contains x y ↔ 0 ≤ x ∧ x < w ∧ 0 ≤ y ∧ y < h := by
  simp [Rectangle.rect, Rectangle.Contains]

theorem colorIndexAt_newPaletted {w h : ℕ} (palette : List RGBA) (f : ℤ → ℤ → UInt8) {x y : ℤ}
    (hx : 0 ≤ x ∧ x < w) (hy : 0 ≤ y ∧ y < h) :
    (newPaletted w h palette f).colorIndexAt x y = f x y := by
  obtain ⟨a, rfl⟩ := Int.eq_ofNat_of_zero_le hx.1
  obtain ⟨b, rfl⟩ := Int.eq_ofNat_of_zero_le hy.1
  have hindex : ((b : ℤ) * w + a).toNat = b * w + a := by
    rw [← Nat.cast_mul, ← Nat.cast_add, Int.toNat_natCast]
  have hget := points_getElem? (w := w) (h := h) (x := a) (y := b) (by omega) (by omega)
  simp only [Paletted.colorIndexAt, newPaletted, Rectangle.rect, Rectangle.dx]
  simp [hindex, hget]

theorem colorAt_mem_colors {img : Image} {w h : ℕ} (hb : img.bounds = .rect 0 0 w h) {x y : ℤ}
    (hx : 0 ≤ x ∧ x < w) (hy : 0 ≤ y ∧ y < h) : img.colorAt x y ∈ img.colors := by
  obtain ⟨a, rfl⟩ := Int.eq_ofNat_of_zero_le hx.1
  obtain ⟨b, rfl⟩ := Int.eq_ofNat_of_zero_le hy.1
  refine List.mem_map.mpr ⟨((a : ℤ), (b : ℤ)), ?_, rfl⟩
  rw [hb, dx_rect_zero, dy_rect_zero]
  exact List.mem_of_getElem? (points_getElem? (by omega) (by omega))

/-! ## The colours of an image -/

/-- An image whose colours all fit a palette, with an entry for transparency where it needs one. -/
def Image.FewColors (img : Image) : Prop :=
  (img.colors.filter fun c => ¬ c.a < 128).dedup.length ≤
    if img.colors.any fun c => c.a < 128 then 255 else 256

instance (img : Image) : Decidable img.FewColors := inferInstanceAs (Decidable (_ ≤ _))

/-- What the first pass knows after some colours. -/
structure Seen (cs : List NRGBA) (s : Colors) : Prop where
  transparent : s.hasTransparent = cs.any fun c => c.a < 128
  nodup : s.exact.Nodup
  keys : ∀ k ∈ s.exact, ∃ c ∈ cs, ¬ c.a < 128 ∧ c.key = k
  all : s.exactOK = true → ∀ c ∈ cs, ¬ c.a < 128 → c.key ∈ s.exact
  full : s.exactOK = false → 256 ≤ s.exact.length ∧ ∃ c ∈ cs, ¬ c.a < 128 ∧ c.key ∉ s.exact

theorem Seen.add {cs : List NRGBA} {s : Colors} (h : Seen cs s) (c : NRGBA) :
    Seen (cs ++ [c]) (s.add c) := by
  have hkeys : ∀ k ∈ s.exact, ∃ d ∈ cs ++ [c], ¬ d.a < 128 ∧ d.key = k := by
    intro k hk
    obtain ⟨d, hd, hdk⟩ := h.keys k hk
    exact ⟨d, List.mem_append_left _ hd, hdk⟩
  have hover : s.exactOK = false → 256 ≤ s.exact.length ∧
      ∃ d ∈ cs ++ [c], ¬ d.a < 128 ∧ d.key ∉ s.exact := by
    intro hok
    obtain ⟨hlen, d, hd, hdk⟩ := h.full hok
    exact ⟨hlen, d, List.mem_append_left _ hd, hdk⟩
  unfold Colors.add
  by_cases hc : c.a < 128
  · rw [if_pos hc]
    refine ⟨by simp [hc], h.nodup, hkeys, ?_, hover⟩
    intro hok d hd hda
    rcases List.mem_append.mp hd with hd | hd
    · exact h.all hok d hd hda
    · rw [List.mem_singleton.mp hd] at hda
      exact absurd hc hda
  · rw [if_neg hc]
    have htransparent : s.hasTransparent = (cs ++ [c]).any fun d => d.a < 128 := by
      rw [h.transparent]
      simp [hc]
    by_cases hok : s.exactOK = true
    · rw [if_pos hok]
      by_cases hmem : c.key ∈ s.exact
      · rw [if_pos hmem]
        refine ⟨htransparent, h.nodup, hkeys, ?_, hover⟩
        intro _ d hd hda
        rcases List.mem_append.mp hd with hd | hd
        · exact h.all hok d hd hda
        · rw [List.mem_singleton.mp hd]
          exact hmem
      · rw [if_neg hmem]
        by_cases hlen : s.exact.length ≥ 256
        · rw [if_pos hlen]
          refine ⟨htransparent, h.nodup, hkeys, by simp, ?_⟩
          intro _
          exact ⟨hlen, c, by simp, hc, hmem⟩
        · rw [if_neg hlen]
          refine ⟨htransparent, ?_, ?_, ?_, ?_⟩
          · exact List.nodup_append.mpr ⟨h.nodup, List.nodup_singleton _, by
              intro a ha b hb hab
              rw [List.mem_singleton.mp hb] at hab
              exact hmem (hab ▸ ha)⟩
          · intro k hk
            rcases List.mem_append.mp hk with hk | hk
            · exact hkeys k hk
            · exact ⟨c, by simp, hc, (List.mem_singleton.mp hk).symm⟩
          · intro _ d hd hda
            rcases List.mem_append.mp hd with hd | hd
            · exact List.mem_append_left _ (h.all hok d hd hda)
            · rw [List.mem_singleton.mp hd]
              exact List.mem_append_right _ (List.mem_singleton_self _)
          · intro hfalse
            exact absurd (hok.symm.trans hfalse) (by decide)
    · rw [if_neg hok]
      exact ⟨htransparent, h.nodup, hkeys, fun htrue => absurd htrue hok, hover⟩

theorem seen_foldl (cs : List NRGBA) : Seen cs (cs.foldl Colors.add ⟨false, [], true⟩) := by
  induction cs using List.reverseRecOn with
  | nil => exact ⟨rfl, List.nodup_nil, by simp, by simp, by simp⟩
  | append_singleton cs c ih =>
      rw [List.foldl_append]
      exact ih.add c

/-- Distinct keys are the keys of as many distinct colours. -/
theorem length_keys_le {cs : List NRGBA} (ks : List ℕ) (hnodup : ks.Nodup)
    (hks : ∀ k ∈ ks, ∃ c ∈ cs, ¬ c.a < 128 ∧ c.key = k) :
    ks.length ≤ (cs.filter fun c => ¬ c.a < 128).dedup.length := by
  have hsub : ks.toFinset ⊆ ((cs.filter fun c => ¬ c.a < 128).toFinset).image NRGBA.key := by
    intro k hk
    obtain ⟨c, hc, hsolid, hkey⟩ := hks k (List.mem_toFinset.mp hk)
    refine Finset.mem_image.mpr ⟨c, ?_, hkey⟩
    rw [List.mem_toFinset, List.mem_filter]
    exact ⟨hc, by simpa using hsolid⟩
  calc ks.length = ks.toFinset.card := (List.toFinset_card_of_nodup hnodup).symm
    _ ≤ (((cs.filter fun c => ¬ c.a < 128).toFinset).image NRGBA.key).card :=
        Finset.card_le_card hsub
    _ ≤ (cs.filter fun c => ¬ c.a < 128).toFinset.card := Finset.card_image_le
    _ = (cs.filter fun c => ¬ c.a < 128).dedup.length := List.card_toFinset _

/-- With few colours the first pass finds them all. -/
theorem Seen.exact_of_few {img : Image} {s : Colors} (h : Seen img.colors s) (hfew : img.FewColors) :
    s.exactOK = true ∧ s.exact.length ≤ if s.hasTransparent then 255 else 256 := by
  have hlen := length_keys_le _ h.nodup h.keys
  rw [h.transparent]
  refine ⟨?_, hlen.trans hfew⟩
  by_contra hok
  obtain ⟨hle, c, hc, hsolid, hnot⟩ := h.full (by simpa using hok)
  have hmore := length_keys_le (c.key :: s.exact) (List.nodup_cons.mpr ⟨hnot, h.nodup⟩) (by
    intro k hk
    rcases List.mem_cons.mp hk with rfl | hk
    · exact ⟨c, hc, hsolid, rfl⟩
    · exact h.keys k hk)
  have hlimit : (img.colors.filter fun c => ¬ c.a < 128).dedup.length ≤ 256 := by
    refine hfew.trans ?_
    split <;> omega
  rw [List.length_cons] at hmore
  omega

/-! ## Exact palettes -/

theorem NRGBA.key_bounds (c : NRGBA) : c.key / 65536 = c.r.toNat ∧ c.key / 256 % 256 = c.g.toNat ∧
    c.key % 256 = c.b.toNat := by
  have hr := c.r.toNat_lt
  have hg := c.g.toNat_lt
  have hb := c.b.toNat_lt
  unfold key
  omega

theorem ofNat_eq_of_mod {n : ℕ} {x : UInt8} (h : n % 256 = x.toNat) : UInt8.ofNat n = x := by
  apply UInt8.toNat.inj
  rw [UInt8.toNat_ofNat']
  exact h

theorem ofKey_key {c : NRGBA} (h : c.a = 255) : (ofKey c.key).convert = c := by
  obtain ⟨hr, hg, hb⟩ := c.key_bounds
  have hr' : c.key / 65536 % 256 = c.r.toNat := by
    rw [hr]
    exact Nat.mod_eq_of_lt c.r.toNat_lt
  rw [ofKey, ofNat_eq_of_mod hr', ofNat_eq_of_mod hg, ofNat_eq_of_mod hb, convert_solid, ← h]

theorem byte_natCast {n : ℕ} (h : n < 256) : (byte n).toNat = n := by
  have hmod : ((n : ℤ) % 256).toNat = n := by omega
  rw [byte, hmod, UInt8.toNat_ofNat']
  exact Nat.mod_eq_of_lt h

theorem NRGBA.OneBit.of_lt {c : NRGBA} (h : c.OneBit) (ha : c.a < 128) : c = .clear := by
  rcases h with hclear | hsolid
  · exact hclear
  · rw [hsolid] at ha
    exact absurd ha (by decide)

theorem NRGBA.OneBit.of_not_lt {c : NRGBA} (h : c.OneBit) (ha : ¬ c.a < 128) : c.a = 255 := by
  rcases h with rfl | hsolid
  · exact absurd (by decide) ha
  · exact hsolid

/-- A palette and its transparent entry show an image exactly. -/
structure Exact (img : Image) (p : Paletted) (transparent : ℤ) : Prop where
  rect : p.rect = img.bounds
  range : -1 ≤ transparent ∧ transparent < p.palette.length
  pix : ∀ i ∈ p.pix, i.toNat < p.palette.length
  pixel : ∀ x y, img.bounds.Contains x y →
    ((p.colorIndexAt x y).toNat : ℤ) = transparent ∧ img.colorAt x y = .clear ∨
    ((p.colorIndexAt x y).toNat : ℤ) ≠ transparent ∧
      ∃ c : RGBA, p.palette[(p.colorIndexAt x y).toNat]? = some c ∧ c.a = 255 ∧
        c.convert = img.colorAt x y

theorem Image.atOrigin_eq {img : Image} {w h : ℕ} (hb : img.bounds = .rect 0 0 w h) :
    img.atOrigin = img := by
  unfold atOrigin
  rw [if_pos]
  rw [hb]
  simp [Rectangle.rect]

/-- The palette of an image with few colours is exact. -/
theorem exact_gifQuantise {img : Image} {w h : ℕ} (hb : img.bounds = .rect 0 0 w h)
    (honeBit : img.OneBit) (hfew : img.FewColors) :
    Exact img (gifQuantise img).1 (gifQuantise img).2 := by
  have hseen := seen_foldl img.colors
  obtain ⟨hok, hlen⟩ := hseen.exact_of_few hfew
  have hlimit : (img.colors.foldl Colors.add ⟨false, [], true⟩).exact.length ≤ 256 := by
    refine hlen.trans ?_
    split <;> omega
  have hw : img.bounds.dx.toNat = w := by rw [hb, dx_rect_zero]
  have hh : img.bounds.dy.toNat = h := by rw [hb, dy_rect_zero]
  unfold gifQuantise
  simp only [img.atOrigin_eq hb, hw, hh]
  generalize img.colors.foldl Colors.add ⟨false, [], true⟩ = s at hseen hok hlen hlimit
  rw [if_pos ⟨hok, hlen⟩]
  -- what a pixel becomes: the transparent entry, or the one of its key
  have hclear : ∀ c ∈ img.colors, c.a < 128 → s.hasTransparent = true := by
    intro c hc ha
    rw [hseen.transparent, List.any_eq_true]
    exact ⟨c, hc, by simpa using ha⟩
  have hkey : ∀ c ∈ img.colors, ¬ c.a < 128 → s.exact.idxOf c.key < s.exact.length :=
    fun c hc ha => List.idxOf_lt_length_of_mem (hseen.all hok c hc ha)
  have hbyte : ∀ c ∈ img.colors, ¬ c.a < 128 →
      (byte (s.exact.idxOf c.key)).toNat = s.exact.idxOf c.key := by
    intro c hc ha
    have hlt := hkey c hc ha
    exact byte_natCast (by omega)
  cases ht : s.hasTransparent with
  | false =>
      have hsolid : ∀ c ∈ img.colors, ¬ c.a < 128 := by
        intro c hc ha
        rw [hclear c hc ha] at ht
        exact absurd ht (by decide)
      have hentry : ∀ c ∈ img.colors, ((if s.exact.map ofKey = [] then [⟨0, 0, 0, 0⟩]
          else s.exact.map ofKey)[s.exact.idxOf c.key]? : Option RGBA) = some (ofKey c.key) := by
        intro c hc
        have hlt := hkey c hc (hsolid c hc)
        rw [if_neg, List.getElem?_map, List.getElem?_eq_getElem hlt, Option.map_some,
          List.getElem_idxOf]
        rw [List.map_eq_nil_iff]
        exact List.ne_nil_of_length_pos (by omega)
      simp only [Bool.false_eq_true, if_false]
      refine ⟨hb.symm, ?_, ?_, ?_⟩
      · simp only [newPaletted]
        constructor <;> omega
      · intro i hi
        simp only [newPaletted, List.mem_map] at hi
        obtain ⟨p, hp, rfl⟩ := hi
        have hc : img.colorAt p.1 p.2 ∈ img.colors :=
          List.mem_map.mpr ⟨p, by rw [hw, hh]; exact hp, rfl⟩
        rw [if_neg (hsolid _ hc), hbyte _ hc (hsolid _ hc)]
        exact (List.getElem?_eq_some_iff.mp (hentry _ hc)).1
      · intro x y hxy
        rw [hb, contains_rect_zero] at hxy
        have hc := colorAt_mem_colors hb ⟨hxy.1, hxy.2.1⟩ hxy.2.2
        rw [colorIndexAt_newPaletted _ _ ⟨hxy.1, hxy.2.1⟩ hxy.2.2, if_neg (hsolid _ hc),
          hbyte _ hc (hsolid _ hc)]
        refine .inr ⟨by omega, ofKey (img.colorAt x y).key, hentry _ hc, rfl, ?_⟩
        exact ofKey_key ((honeBit x y).of_not_lt (hsolid _ hc))
  | true =>
      rw [ht, if_pos rfl] at hlen
      simp only [if_true]
      have hne : ¬ s.exact.map ofKey ++ [(⟨0, 0, 0, 0⟩ : RGBA)] = [] := by simp
      rw [if_neg hne]
      have hlast : (byte ((s.exact.map ofKey).length : ℤ)).toNat = s.exact.length := by
        rw [List.length_map]
        exact byte_natCast (by omega)
      refine ⟨hb.symm, ?_, ?_, ?_⟩
      · simp only [newPaletted, List.length_append, List.length_map, List.length_singleton]
        constructor <;> push_cast <;> omega
      · intro i hi
        simp only [newPaletted, List.mem_map] at hi
        obtain ⟨p, hp, rfl⟩ := hi
        have hc : img.colorAt p.1 p.2 ∈ img.colors :=
          List.mem_map.mpr ⟨p, by rw [hw, hh]; exact hp, rfl⟩
        simp only [newPaletted, List.length_append, List.length_map, List.length_singleton]
        by_cases ha : (img.colorAt p.1 p.2).a < 128
        · rw [if_pos ha]
          rw [List.length_map] at hlast
          omega
        · have hlt := hkey _ hc ha
          rw [if_neg ha, hbyte _ hc ha]
          omega
      · intro x y hxy
        rw [hb, contains_rect_zero] at hxy
        have hc := colorAt_mem_colors hb ⟨hxy.1, hxy.2.1⟩ hxy.2.2
        rw [colorIndexAt_newPaletted _ _ ⟨hxy.1, hxy.2.1⟩ hxy.2.2]
        by_cases ha : (img.colorAt x y).a < 128
        · rw [if_pos ha, hlast]
          exact .inl ⟨by rw [List.length_map], (honeBit x y).of_lt ha⟩
        · have hlt := hkey _ hc ha
          rw [if_neg ha, hbyte _ hc ha]
          refine .inr ⟨by rw [List.length_map]; omega, ofKey (img.colorAt x y).key, ?_, rfl, ?_⟩
          · simp only [newPaletted]
            rw [List.getElem?_append_left (by rw [List.length_map]; exact hlt), List.getElem?_map,
              List.getElem?_eq_getElem hlt, Option.map_some, List.getElem_idxOf]
          · exact ofKey_key ((honeBit x y).of_not_lt ha)

/-! ## Reading a written frame -/

/-- An entry of a palette as its table gives it back. -/
def tableEntry (palette : List RGBA) (i : ℕ) : RGBA :=
  (palette[i]?.map fun c => ⟨c.r, c.g, c.b, 255⟩).getD ⟨0, 0, 0, 255⟩

theorem colorTable_tableBytes (palette : List RGBA) (n : ℕ) :
    colorTable (tableBytes palette n) = (List.range n).map (tableEntry palette) := by
  unfold tableBytes
  induction List.range n with
  | nil => rfl
  | cons i is ih =>
      rw [List.flatMap_cons, List.map_cons, ← ih, tableEntry]
      cases palette[i]? <;> rfl

theorem tableEntry_solid {palette : List RGBA} {i : ℕ} {c : RGBA} (h : palette[i]? = some c)
    (ha : c.a = 255) : tableEntry palette i = c := by
  rw [tableEntry, h, Option.map_some, Option.getD_some, ← ha]

theorem le_bitsFrom {n : ℕ} (fuel bits : ℕ) (h : n ≤ 2 ^ (bits + fuel)) :
    n ≤ 2 ^ bitsFrom n fuel bits := by
  induction fuel generalizing bits with
  | zero => exact h
  | succ fuel ih =>
      rw [bitsFrom]
      split
      · exact ih (bits + 1) (by rwa [Nat.add_right_comm])
      · omega

theorem le_tableBits {n : ℕ} (h : n ≤ 256) : n ≤ 2 ^ tableBits n := le_bitsFrom 7 1 (by norm_num; omega)

theorem le16_byte {n : ℕ} (h : n < 65536) : le16 (byte n) (byte ((n : ℤ) / 256)) = n := by
  have hlow : (byte n).toNat = n % 256 := by
    have hmod : ((n : ℤ) % 256).toNat = n % 256 := by omega
    rw [byte, hmod, UInt8.toNat_ofNat']
    exact Nat.mod_eq_of_lt (Nat.mod_lt _ (by norm_num))
  have hhigh : (byte ((n : ℤ) / 256)).toNat = n / 256 := by
    have hdiv : (n : ℤ) / 256 = (n / 256 : ℕ) := by omega
    rw [hdiv]
    exact byte_natCast (by omega)
  rw [le16, hlow, hhigh]
  omega

/-- The fields of the graphic control extension come back. -/
theorem packed_fields (d : UInt8) : ((d &&& 7) <<< 2 >>> 2) &&& 7 = d &&& 7 ∧
    (((d &&& 7) <<< 2 ||| 1) >>> 2) &&& 7 = d &&& 7 ∧ (d &&& 7) <<< 2 &&& 1 = 0 ∧
    ((d &&& 7) <<< 2 ||| 1) &&& 1 = 1 := by
  have hall : ∀ n : Fin 8, (UInt8.ofNat n <<< 2 >>> 2) &&& 7 = UInt8.ofNat n ∧
      ((UInt8.ofNat n <<< 2 ||| 1) >>> 2) &&& 7 = UInt8.ofNat n ∧
      UInt8.ofNat n <<< 2 &&& 1 = 0 ∧ (UInt8.ofNat n <<< 2 ||| 1) &&& 1 = 1 := by
    decide +kernel
  have hlow : (d &&& 7).toNat < 8 := Nat.lt_succ_of_le Nat.and_le_right
  have hd := hall ⟨(d &&& 7).toNat, hlow⟩
  rw [UInt8.ofNat_toNat] at hd
  exact hd

/-- The parts of a written frame. -/
structure Written (p : Paletted) (transparent : ℤ) (disposal : UInt8) (b : Block) : Prop where
  gce : ∃ gce : Vector UInt8 8, b.gce = some gce ∧ gce.get 2 = 4 ∧ gce.get 7 = 0 ∧
    (gce.get 3 >>> 2) &&& 7 = disposal &&& 7 ∧
    (if transparent ≥ 0 then gce.get 3 &&& 1 = 1 ∧ gce.get 6 = byte transparent
      else gce.get 3 &&& 1 = 0)
  origin : b.left = 0 ∧ b.top = 0
  size : b.width = le16 (byte p.rect.dx) (byte (p.rect.dx / 256)) ∧
    b.height = le16 (byte p.rect.dy) (byte (p.rect.dy / 256))
  table : b.descriptor[9] &&& 0x80 ≠ 0 ∧ b.table = tableBytes p.palette (2 ^ tableBits p.palette.length)
  lit : ¬ (b.lit < 2 ∨ b.lit > 8)
  pixels : b.pixels = p.pix
  palette : p.palette.length ≤ 256

theorem written_of_frameBlock {p : Paletted} {transparent delay : ℤ} {disposal : UInt8} {b : Block}
    (h : frameBlock p transparent delay disposal = .ok b) : Written p transparent disposal b := by
  unfold frameBlock at h
  simp only at h
  by_cases hsize : p.palette.length = 0 ∨ p.palette.length > 256
  · rw [if_pos hsize] at h
    cases h
  · rw [if_neg hsize] at h
    obtain ⟨hshift, hshift', hflag, hflag'⟩ := packed_fields disposal
    have hbits := tableBits_bounds p.palette.length
    by_cases hlit : (p.pix.any fun i => i.toNat ≥ 2 ^ (if tableBits p.palette.length < 2 then 2
        else tableBits p.palette.length)) = true
    · rw [if_pos hlit] at h
      cases h
    · rw [if_neg hlit] at h
      cases h
      refine ⟨⟨_, rfl, rfl, rfl, ?_, ?_⟩, ⟨rfl, rfl⟩, ⟨rfl, rfl⟩, ⟨?_, rfl⟩, ?_, rfl, by omega⟩
      · show ((if transparent ≥ 0 then (disposal &&& 7) <<< 2 ||| 1 else (disposal &&& 7) <<< 2)
          >>> 2) &&& 7 = _
        split
        · exact hshift'
        · exact hshift
      · show if transparent ≥ 0 then
          (if transparent ≥ 0 then (disposal &&& 7) <<< 2 ||| 1 else (disposal &&& 7) <<< 2) &&& 1 = 1 ∧
            (if transparent ≥ 0 then byte transparent else 0) = byte transparent
          else (if transparent ≥ 0 then (disposal &&& 7) <<< 2 ||| 1 else (disposal &&& 7) <<< 2) &&& 1 = 0
        split
        · exact ⟨hflag', rfl⟩
        · exact hflag
      · show ((0x80 : UInt8) ||| .ofNat (tableBits p.palette.length - 1)) &&& 0x80 ≠ 0
        generalize tableBits p.palette.length = bits at hbits
        obtain ⟨hlow, hhigh⟩ := hbits
        interval_cases bits <;> decide
      · show ¬ (UInt8.ofNat (if tableBits p.palette.length < 2 then 2
          else tableBits p.palette.length) < 2 ∨ UInt8.ofNat (if tableBits p.palette.length < 2 then 2
          else tableBits p.palette.length) > 8)
        generalize tableBits p.palette.length = bits at hbits
        obtain ⟨hlow, hhigh⟩ := hbits
        interval_cases bits <;> decide

/-- A written frame is one of the whole screen that shows the image. -/
theorem decodeFrame_written {img : Image} {p : Paletted} {transparent : ℤ} {disposal : UInt8}
    {b : Block} {data : Gif} {w h : ℕ} (hwritten : Written p transparent disposal b)
    (hexact : Exact img p transparent) (hb : img.bounds = .rect 0 0 w h) (hw : w < 65536)
    (hh : h < 65536) (hdata : data.width = w ∧ data.height = h) :
    ∃ q, decodeFrame data b = .ok q ∧ q.rect = img.bounds ∧
      ∀ x y, img.bounds.Contains x y → q.pal (q.colorIndexAt x y) = img.colorAt x y := by
  obtain ⟨gce, hgce, hfields⟩ := hwritten.gce
  obtain ⟨htwo, hseven, -, htransparent⟩ : gce[2] = 4 ∧ gce[7] = 0 ∧
    (gce[3] >>> 2) &&& 7 = disposal &&& 7 ∧
    (if transparent ≥ 0 then gce[3] &&& 1 = 1 ∧ gce[6] = byte transparent
      else gce[3] &&& 1 = 0) := hfields
  have hdx : p.rect.dx = w := by
    rw [hexact.rect, hb]
    simp [Rectangle.rect, Rectangle.dx]
  have hdy : p.rect.dy = h := by
    rw [hexact.rect, hb]
    simp [Rectangle.rect, Rectangle.dy]
  have hwidth : b.width = w := by rw [hwritten.size.1, hdx, le16_byte hw]
  have hheight : b.height = h := by rw [hwritten.size.2, hdy, le16_byte hh]
  have hrect : b.rect = p.rect := by
    rw [hexact.rect, hb, Block.rect, hwidth, hheight, hwritten.origin.1, hwritten.origin.2]
    simp
  have hlength : b.pixels.length = b.rect.dx.toNat * b.rect.dy.toNat := by
    rw [hwritten.pixels, hrect, p.length_pix]
  have hroom := le_tableBits hwritten.palette
  have htable : data.palette b = if transparent ≥ 0 then
      ((List.range (2 ^ tableBits p.palette.length)).map (tableEntry p.palette)).set
        transparent.toNat ⟨0, 0, 0, 0⟩
      else (List.range (2 ^ tableBits p.palette.length)).map (tableEntry p.palette) := by
    have hrange := hexact.range
    unfold Gif.palette
    rw [hgce, if_pos hwritten.table.1, hwritten.table.2, colorTable_tableBytes]
    simp only
    by_cases ht : transparent ≥ 0
    · rw [if_pos ht] at htransparent
      have hindex : (byte transparent).toNat = transparent.toNat := by
        obtain ⟨n, rfl⟩ := Int.eq_ofNat_of_zero_le ht
        have hsize := hwritten.palette
        exact byte_natCast (by omega)
      have hset : gce[3] &&& 1 ≠ 0 := by
        rw [htransparent.1]
        decide
      rw [if_pos ht, if_pos hset, htransparent.2, hindex, transparentAt,
        if_pos (by rw [List.length_map, List.length_range]; omega)]
    · rw [if_neg ht] at htransparent
      rw [if_neg ht, if_neg (not_not.mpr htransparent)]
  have hpalette : p.palette.length ≤ (data.palette b).length := by
    rw [htable]
    split <;> simp [hroom]
  refine ⟨⟨b.rect, data.palette b, b.pixels, hlength⟩, ?_, hrect.trans hexact.rect, ?_⟩
  · unfold decodeFrame
    simp only
    rw [if_neg (by simp [hgce, htwo, hseven]), if_neg (by
        rw [hwritten.origin.1, hwritten.origin.2, hwidth, hheight, hdata.1, hdata.2]
        omega),
      if_neg (fun hnone => hwritten.table.1 hnone.1), if_neg hwritten.lit, dif_pos hlength, if_neg]
    simp only [List.any_eq_true, decide_eq_true_eq, not_exists, not_and, not_le]
    intro i hi
    rw [hwritten.pixels] at hi
    exact (hexact.pix i hi).trans_le hpalette
  · intro x y hxy
    have hindex : Paletted.colorIndexAt ⟨b.rect, data.palette b, b.pixels, hlength⟩ x y =
        p.colorIndexAt x y := by
      simp only [Paletted.colorIndexAt, hrect, hwritten.pixels]
    rw [hindex, Paletted.pal]
    simp only [htable]
    rcases hexact.pixel x y hxy with ⟨heq, hclear⟩ | ⟨hne, c, hc, ha, hcolor⟩
    · have hrange := hexact.range
      have ht : transparent ≥ 0 := by omega
      rw [if_pos ht, hclear]
      rw [show (p.colorIndexAt x y).toNat = transparent.toNat by omega, List.getElem?_set_self]
      · rw [Option.map_some, Option.getD_some, convert_clear]
      · rw [List.length_map, List.length_range]
        omega
    · have hlt := (List.getElem?_eq_some_iff.mp hc).1
      have hentry : ((List.range (2 ^ tableBits p.palette.length)).map
          (tableEntry p.palette))[(p.colorIndexAt x y).toNat]? = some c := by
        rw [List.getElem?_map, List.getElem?_range (hlt.trans_le hroom), Option.map_some,
          tableEntry_solid hc ha]
      split
      · rw [List.getElem?_set_ne (by omega), hentry]
        exact hcolor
      · rw [hentry]
        exact hcolor

end Sky.StdImage
