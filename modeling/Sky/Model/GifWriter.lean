import Sky.Model.Gif

/-! # Writing animated GIFs

`image_gif.go`: an image is mapped to a palette of its own and written as a frame of the whole
screen; `image_kernels.go` and `image_edit_kernels.go`: the operations on animations. -/

namespace Sky.StdImage

/-! ## Palettes -/

/-- The points of a `w × h` image, row by row. -/
def points (w h : ℕ) : List (ℤ × ℤ) :=
  (List.range (w * h)).map fun i => ((i % w : ℕ), (i / w : ℕ))

/-- `r << 16 | g << 8 | b` -/
def NRGBA.key (c : NRGBA) : ℕ := c.r.toNat * 65536 + c.g.toNat * 256 + c.b.toNat

/-- The colour of a key, opaque. -/
def ofKey (key : ℕ) : RGBA := ⟨.ofNat (key / 65536), .ofNat (key / 256), .ofNat key, 0xff⟩

/-- What the first pass over an image has seen: the keys of its colours, each at the index that it
is given. -/
structure Colors where
  hasTransparent : Bool
  exact : List ℕ
  exactOK : Bool

def Colors.add (s : Colors) (c : NRGBA) : Colors :=
  if c.a < 128 then { s with hasTransparent := true }
  else if s.exactOK then
    if c.key ∈ s.exact then s
    else if s.exact.length ≥ 256 then { s with exactOK := false }
    else { s with exact := s.exact ++ [c.key] }
  else s

/-! ## Median cut -/

/-- The colours of one cell of 5 bits per channel. -/
structure Bucket where
  key : ℕ
  count : ℕ
  sumR : ℕ
  sumG : ℕ
  sumB : ℕ

def Bucket.channel (b : Bucket) (c : ℕ) : ℕ := b.key / 2 ^ (10 - 5 * c) % 32

/-- A range of the buckets, with its pixels. -/
structure Box where
  seg : List Bucket
  count : ℕ

def NRGBA.cell (c : NRGBA) : ℕ :=
  c.r.toNat / 8 * 1024 + c.g.toNat / 8 * 32 + c.b.toNat / 8

def bucketsOf (colors : List NRGBA) : List Bucket :=
  (List.range 32768).filterMap fun k =>
    let cs := colors.filter fun c => c.cell = k
    if cs = [] then none
    else some ⟨k, cs.length, (cs.map fun c => c.r.toNat).sum, (cs.map fun c => c.g.toNat).sum,
      (cs.map fun c => c.b.toNat).sum⟩

/-- The box with the most pixels that has more than one bucket. -/
def bestBox (boxes : List Box) : Option ℕ :=
  boxes.zipIdx.foldl (fun best (bx, i) =>
    if bx.seg.length > 1 ∧ best.all (fun j => bx.count > (boxes[j]?.map Box.count).getD 0) then some i
    else best) none

def span (seg : List Bucket) (c : ℕ) : ℤ :=
  ((seg.foldl (fun hi b => max hi (b.channel c)) 0 : ℕ) : ℤ) -
    (seg.foldl (fun lo b => min lo (b.channel c)) 31 : ℕ)

/-- The channel with the widest range. -/
def widest (seg : List Bucket) : ℕ :=
  ([0, 1, 2].foldl (fun (best : ℕ × ℤ) c => if span seg c > best.2 then (c, span seg c) else best)
    (0, -1)).1

/-- Behind which bucket half of the pixels are reached. -/
def cutAt (half : ℕ) : ℕ → ℕ → List Bucket → ℕ
  | _, _, [] => 1
  | acc, i, b :: seg => if acc + b.count ≥ half then i + 1 else cutAt half (acc + b.count) (i + 1) seg

def splitBox (bx : Box) : Box × Box :=
  let ch := widest bx.seg
  let seg := bx.seg.mergeSort fun a b => a.channel ch ≤ b.channel ch
  let cut := min (cutAt (bx.count / 2) 0 0 seg) (seg.length - 1)
  let left : Box := ⟨seg.take cut, ((seg.take cut).map Bucket.count).sum⟩
  (left, ⟨seg.drop cut, bx.count - left.count⟩)

/-- The boxes, one more in each round, until there are `limit` or none can be split. -/
def splitBoxes : ℕ → List Box → List Box
  | 0, boxes => boxes
  | rounds + 1, boxes =>
      match bestBox boxes with
      | none => boxes
      | some i =>
          match boxes[i]? with
          | none => boxes
          | some bx => splitBoxes rounds (boxes.set i (splitBox bx).1 ++ [(splitBox bx).2])

def gifMedianCut (colors : List NRGBA) (limit : ℕ) : List RGBA :=
  let buckets := bucketsOf (colors.filter fun c => ¬ c.a < 128)
  if buckets = [] then [⟨0, 0, 0, 0xff⟩]
  else
    (splitBoxes (limit - 1) [⟨buckets, (buckets.map Bucket.count).sum⟩]).filterMap fun bx =>
      let n := (bx.seg.map Bucket.count).sum
      if n = 0 then none
      else some ⟨.ofNat (((bx.seg.map Bucket.sumR).sum + n / 2) / n),
        .ofNat (((bx.seg.map Bucket.sumG).sum + n / 2) / n),
        .ofNat (((bx.seg.map Bucket.sumB).sum + n / 2) / n), 0xff⟩

/-! ## Dithering -/

def byte (i : ℤ) : UInt8 := .ofNat (i % 256).toNat

def RGBA.channel (c : RGBA) : Fin 3 → ℕ
  | 0 => c.r.toNat
  | 1 => c.g.toNat
  | 2 => c.b.toNat

def NRGBA.channel (c : NRGBA) : Fin 3 → ℕ
  | 0 => c.r.toNat
  | 1 => c.g.toNat
  | 2 => c.b.toNat

/-- The nearest entry of the palette; the first answer for a cell of 6 bits per channel stands. -/
def nearest (pal : List RGBA) (cache : List (ℕ × ℕ)) (v : Fin 3 → ℕ) : ℕ × List (ℕ × ℕ) :=
  let k := v 0 / 4 * 4096 + v 1 / 4 * 64 + v 2 / 4
  match cache.lookup k with
  | some best => (best, cache)
  | none =>
      let dist : RGBA → ℤ := fun c => 2 * ((v 0 : ℤ) - c.channel 0) ^ 2 +
        4 * ((v 1 : ℤ) - c.channel 1) ^ 2 + 3 * ((v 2 : ℤ) - c.channel 2) ^ 2
      let best := (pal.zipIdx.foldl (fun (best : ℕ × ℤ) (p : RGBA × ℕ) =>
        if dist p.1 < best.2 then (p.2, dist p.1) else best) (0, 2 ^ 30)).1
      (best, (k, best) :: cache)

/-- The errors that wait for the pixels of this row and of the next, by column. -/
structure Diffusion where
  cache : List (ℕ × ℕ)
  cur : ℕ → Fin 3 → ℤ
  next : ℕ → Fin 3 → ℤ
  pix : List UInt8

/-- A share of an error, at a column. -/
def spread (errors : ℕ → Fin 3 → ℤ) (x : ℕ) (share : ℤ) (e : Fin 3 → ℤ) : ℕ → Fin 3 → ℤ :=
  Function.update errors x fun c => errors x c + e c * share

def Diffusion.pixel (pal : List RGBA) (transparent : ℤ) (s : Diffusion) (x : ℕ) (c : NRGBA) :
    Diffusion :=
  if c.a < 128 then { s with pix := s.pix ++ [byte transparent] }
  else
    let v : Fin 3 → ℤ := fun ch => c.channel ch + (s.cur (x + 1) ch).tdiv 16
    let near := nearest pal s.cache fun ch => (max 0 (min 255 (v ch))).toNat
    let e : Fin 3 → ℤ := fun ch => v ch - ((pal[near.1]?.map fun p => p.channel ch).getD 0 : ℕ)
    { cache := near.2
      cur := spread s.cur (x + 2) 7 e
      next := spread (spread (spread s.next x 3 e) (x + 1) 5 e) (x + 2) 1 e
      pix := s.pix ++ [byte near.1] }

def Diffusion.row (pal : List RGBA) (transparent : ℤ) (src : Image) (w : ℕ) (s : Diffusion) (y : ℕ) :
    Diffusion :=
  let s := (List.range w).foldl (fun s x => s.pixel pal transparent x (src.colorAt x y)) s
  { s with cur := s.next, next := fun _ _ => 0 }

/-- The indices of `src` in `pal`, row by row. -/
def gifDither (src : Image) (w h : ℕ) (pal : List RGBA) (transparent : ℤ) : List UInt8 :=
  ((List.range h).foldl (Diffusion.row pal transparent src w)
    ⟨[], fun _ _ => 0, fun _ _ => 0, []⟩).pix

/-! ## Quantising -/

@[simp] theorem length_points (w h : ℕ) : (points w h).length = w * h := by
  rw [points, List.length_map, List.length_range]

@[simp] theorem dx_rect_zero (w h : ℕ) : (Rectangle.rect 0 0 w h).dx.toNat = w := by
  simp [Rectangle.rect, Rectangle.dx]

@[simp] theorem dy_rect_zero (w h : ℕ) : (Rectangle.rect 0 0 w h).dy.toNat = h := by
  simp [Rectangle.rect, Rectangle.dy]

def newPaletted (w h : ℕ) (palette : List RGBA) (index : ℤ → ℤ → UInt8) : Paletted where
  rect := .rect 0 0 w h
  palette := palette
  pix := (points w h).map fun p => index p.1 p.2
  length_pix := by simp

/-- The image, moved to the origin. -/
def Image.atOrigin (img : Image) : Image :=
  if img.bounds.minX = 0 ∧ img.bounds.minY = 0 then img
  else .make (.rect 0 0 img.bounds.dx img.bounds.dy) fun x y =>
    img.colorAt (img.bounds.minX + x) (img.bounds.minY + y)

/-- The colours of an image, row by row. -/
def Image.colors (src : Image) : List NRGBA :=
  (points src.bounds.dx.toNat src.bounds.dy.toNat).map fun p => src.colorAt p.1 p.2

/-- The image with a palette, and the index of its transparent entry, or -1. -/
def gifQuantise (img : Image) : Paletted × ℤ :=
  let src := img.atOrigin
  let w := src.bounds.dx.toNat
  let h := src.bounds.dy.toNat
  let seen := src.colors.foldl Colors.add ⟨false, [], true⟩
  let limit := if seen.hasTransparent then 255 else 256
  if seen.exactOK ∧ seen.exact.length ≤ limit then
    let pal := seen.exact.map ofKey
    let transparent : ℤ := if seen.hasTransparent then pal.length else -1
    let pal := if seen.hasTransparent then pal ++ [⟨0, 0, 0, 0⟩] else pal
    let pal := if pal = [] then [⟨0, 0, 0, 0⟩] else pal
    (newPaletted w h pal fun x y =>
      let c := src.colorAt x y
      if c.a < 128 then byte transparent else byte (seen.exact.idxOf c.key), transparent)
  else
    let pal := gifMedianCut src.colors limit
    let transparent : ℤ := if seen.hasTransparent then pal.length else -1
    let pix := gifDither src w h pal transparent
    let full := if seen.hasTransparent then pal ++ [⟨0, 0, 0, 0⟩] else pal
    (newPaletted w h full fun x y => pix[(y * w + x).toNat]?.getD 0, transparent)

/-! ## The writer -/

def newGifWriter (w h loopCount : ℤ) : Gif where
  header := #v[0x47, 0x49, 0x46, 0x38, 0x39, 0x61, byte w, byte (w / 256), byte h, byte (h / 256),
    0x70, 0, 0]
  global := []
  loop := if loopCount ≥ 0 then some (byte loopCount, byte (loopCount / 256)) else none
  blocks := []
  length_global := (by decide : 0 = 3 * tableSize 0x70)

/-- The smallest number of bits from `bits` on that count to `n`, in at most `fuel` more. -/
def bitsFrom (n : ℕ) : ℕ → ℕ → ℕ
  | 0, bits => bits
  | fuel + 1, bits => if 2 ^ bits < n then bitsFrom n fuel (bits + 1) else bits

/-- The size of a colour table of up to 256 colours: at least 1 bit. -/
def tableBits (n : ℕ) : ℕ := bitsFrom n 7 1

theorem bitsFrom_bounds (n fuel bits : ℕ) : bits ≤ bitsFrom n fuel bits ∧
    bitsFrom n fuel bits ≤ bits + fuel := by
  induction fuel generalizing bits with
  | zero => exact ⟨le_rfl, le_rfl⟩
  | succ fuel ih =>
      rw [bitsFrom]
      split
      · have hbits := ih (bits + 1)
        omega
      · omega

theorem tableBits_bounds (n : ℕ) : 1 ≤ tableBits n ∧ tableBits n ≤ 8 := bitsFrom_bounds n 7 1

theorem tableSize_of_bits {bits : ℕ} (h : 1 ≤ bits) (h' : bits ≤ 8) :
    tableSize (0x80 ||| UInt8.ofNat (bits - 1)) = 2 ^ bits := by
  interval_cases bits <;> rfl

/-- The bytes of a colour table of `n` colours. -/
def tableBytes (palette : List RGBA) (n : ℕ) : List UInt8 :=
  (List.range n).flatMap fun i =>
    match palette[i]? with
    | some c => [c.r, c.g, c.b]
    | none => [0, 0, 0]

theorem length_tableBytes (palette : List RGBA) (n : ℕ) :
    (tableBytes palette n).length = 3 * n := by
  induction n with
  | zero => rfl
  | succ n ih =>
      have hsucc : tableBytes palette (n + 1) = tableBytes palette n ++
          match palette[n]? with
          | some c => [c.r, c.g, c.b]
          | none => [0, 0, 0] := by
        simp [tableBytes, List.range_succ]
      rw [hsucc, List.length_append, ih]
      cases palette[n]? <;> simp <;> omega

theorem Paletted.length_table (p : Paletted) :
    (tableBytes p.palette (2 ^ tableBits p.palette.length)).length =
      3 * tableSize (0x80 ||| .ofNat (tableBits p.palette.length - 1)) := by
  have hbits := tableBits_bounds p.palette.length
  rw [length_tableBytes, tableSize_of_bits hbits.1 hbits.2]

/-- One frame of the whole screen, with its own colour table. -/
def frameBlock (p : Paletted) (transparent delay : ℤ) (disposal : UInt8) : Except String Block :=
  if p.palette.length = 0 ∨ p.palette.length > 256 then .error "palette size out of range"
  else
    let delay := if delay < 0 then 0 else if delay > 0xffff then 0xffff else delay
    let packed := (disposal &&& 7) <<< 2
    let packed := if transparent ≥ 0 then packed ||| 1 else packed
    let ti := if transparent ≥ 0 then byte transparent else 0
    let bits := tableBits p.palette.length
    let lit := if bits < 2 then 2 else bits
    if p.pix.any fun i => i.toNat ≥ 2 ^ lit then
      .error "lzw: input byte too large for the litWidth"
    else
      .ok {
        gce := some #v[0x21, 0xF9, 4, packed, byte delay, byte (delay / 256), ti, 0]
        descriptor := #v[0x2C, 0, 0, 0, 0, byte p.rect.dx, byte (p.rect.dx / 256), byte p.rect.dy,
          byte (p.rect.dy / 256), 0x80 ||| .ofNat (bits - 1)]
        table := tableBytes p.palette (2 ^ bits)
        lit := .ofNat lit
        pixels := p.pix
        length_table := p.length_table }

def Gif.frame (g : Gif) (p : Paletted) (transparent delay : ℤ) (disposal : UInt8) :
    Except String Gif := do
  let b ← frameBlock p transparent delay disposal
  .ok { g with blocks := g.blocks ++ [b] }

/-! ## Processing an animation -/

/-- The writer, and the frame that is written once its delay is known. -/
structure Animation where
  g : Option Gif
  pending : Option (Paletted × ℤ)
  pendingDelay : ℤ
  pendingDisposal : UInt8

def Animation.flush (op : String) (a : Animation) : Except Failure Animation :=
  match a.pending with
  | none => .ok a
  | some (p, transparent) =>
      match a.g with
      | none => .error .panicked
      | some g =>
          match g.frame p transparent a.pendingDelay a.pendingDisposal with
          | .error e => .error (.ffi (op ++ ": gif encode: " ++ e))
          | .ok g => .ok { a with g := some g, pending := none }

section

variable (op : String) (data : Gif) (s : ScanResult) (fn : Image → Except Failure Image)
  (keep : Option (ℕ → Bool)) (forceBackground : Bool)

/-- What `gifAnimate` does with the `i`-th composed frame. -/
def animateFrame (i : ℕ) (composed : Image) (a : Animation) : Except Failure Animation :=
  match s.frames[i]? with
  | none => .error .panicked
  | some f =>
      if keep.any (fun k => !k i) then .ok { a with pendingDelay := a.pendingDelay + f.delay }
      else do
        let a ← a.flush op
        let out ← fn composed
        let g := a.g.getD (newGifWriter out.bounds.dx out.bounds.dy s.loopCount)
        .ok { g := some g
              pending := some (gifQuantise out)
              pendingDelay := f.delay
              pendingDisposal := if forceBackground then gifDisposalBackground else f.disposal }

def gifAnimate : Except Failure Gif := do
  let a ← gifEachFrame op data s (animateFrame op s fn keep forceBackground) ⟨none, none, 0, 0⟩
  let a ← a.flush op
  match a.g with
  | none => .error (.invalidInput (op ++ ": not a decodable GIF: no image"))
  | some g => .ok g

end

/-! ## The operations -/

def reduceFramesBytes (data : Gif) (n : ℤ) : Except Failure Gif := do
  let op := "image.reduceFrames"
  if n < 1 then .error (.invalidInput (op ++ ": keep 1 frame in n needs n >= 1"))
  else
    imageCheckPixels op data.width data.height
    let s ← gifScan op data gifDefaultLimits
    gifAnimate op data s .ok (some fun i => (i : ℤ) % n = 0) true

/-- The box of the pixels that are no margin; it grows with every image. -/
structure TrimBox where
  t : UInt8
  minX : ℤ
  minY : ℤ
  maxX : ℤ
  maxY : ℤ
  seen : Bool

namespace TrimBox

def addPixel (src : Image) (tb : TrimBox) (p : ℤ × ℤ) : TrimBox :=
  let x := src.bounds.minX + p.1
  let y := src.bounds.minY + p.2
  let c := src.colorAt x y
  if c.a = 0 ∨ (c.r ≥ tb.t ∧ c.g ≥ tb.t ∧ c.b ≥ tb.t) then tb
  else { tb with
    minX := if x < tb.minX then x else tb.minX
    maxX := if x > tb.maxX then x else tb.maxX
    minY := if y < tb.minY then y else tb.minY
    maxY := if y > tb.maxY then y else tb.maxY }

def add (tb : TrimBox) (src : Image) : TrimBox :=
  let b := src.bounds
  let tb := if tb.seen then tb else ⟨tb.t, b.maxX, b.maxY, b.minX - 1, b.minY - 1, true⟩
  (points b.dx.toNat b.dy.toNat).foldl (addPixel src) tb

/-- What is left of an image, with its padding. -/
def cut (tb : TrimBox) (padding : ℤ) (src : Image) : Except Failure Image :=
  if tb.maxX < tb.minX ∨ tb.maxY < tb.minY then
    .error (.invalidInput "nothing left to trim to")
  else
    .ok (copyRect src ((Rectangle.rect (int (tb.minX - padding)) (int (tb.minY - padding))
      (int (tb.maxX + 1 + padding)) (int (tb.maxY + 1 + padding))).intersect src.bounds))

end TrimBox

/-- The area of a crop, from the top-left corner of the image. -/
def cropArea (x y w h : ℤ) (src : Image) : Except Failure Image :=
  let b := src.bounds
  let r := (Rectangle.rect (int (b.minX + x)) (int (b.minY + y)) (int (int (b.minX + x) + w))
    (int (int (b.minY + y) + h))).intersect b
  if r.Empty then
    .error (.invalidInput "image.crop: the area is outside the image or empty")
  else .ok (copyRect src r)

/-- What an operation writes: a GIF, or one image for the encoder of the named format. -/
inductive Output where
  | animation (g : Gif)
  | still (image : Image) (format : String)

def gifFirstFrame (op : String) (data : Gif) : Except Failure Image := do
  let s ← gifScan op data ⟨0, 0, 1⟩
  let first ← gifEachFrame op data s (fun _ composed _ => .ok (some composed)) none
  match first with
  | none => .error .panicked
  | some img => .ok img

/-- `imageApply` on a GIF; `prepass` folds every image into what `fn` is given. -/
def imageApply {τ : Type} (op : String) (data : Gif) (outFormat : String)
    (keepAnimation forceBackground : Bool) (start : τ) (prepass : Option (τ → Image → τ))
    (fn : τ → Image → Except Failure Image) : Except Failure Output := do
  imageCheckPixels op data.width data.height
  let s ← gifScan op data gifDefaultLimits
  if outFormat = "gif" ∨ outFormat = "preserve" ∨ outFormat = "" ∨
      (keepAnimation ∧ s.frames.length > 1) then
    let t ← match prepass with
      | none => .ok start
      | some prepass => gifEachFrame op data s (fun _ img t => .ok (prepass t img)) start
    let g ← gifAnimate op data s (fn t) none forceBackground
    .ok (.animation g)
  else
    imageCheckPixels op data.width data.height
    let src ← gifFirstFrame op data
    let out ← fn (prepass.elim start fun prepass => prepass start src) src
    .ok (.still out outFormat)

def trimBytes (data : Gif) (outFormat : String) (threshold padding : ℤ) : Except Failure Output :=
  if threshold < 0 ∨ threshold > 255 then
    .error (.invalidInput "image.trim: threshold must be 0..255")
  else if padding < 0 then
    .error (.invalidInput "image.trim: padding must not be negative")
  else
    imageApply "image.trim" data outFormat false false ⟨byte threshold, 0, 0, 0, 0, false⟩
      (some TrimBox.add) (fun tb => tb.cut padding)

def cropBytes (data : Gif) (outFormat : String) (x y w h : ℤ) : Except Failure Output :=
  if w < 0 ∨ h < 0 then
    .error (.invalidInput "image.crop: width and height must not be negative")
  else
    imageApply "image.crop" data outFormat false false () none
      (fun _ => cropArea x y w h)

end Sky.StdImage
