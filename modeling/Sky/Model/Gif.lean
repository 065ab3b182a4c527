import Mathlib

/-! # Animated GIFs

`image_gif.go`: a GIF is scanned, its frames are composed on a screen one by one, and what an
operation makes of them is written as a GIF. A GIF is its blocks: the sub-blocks and LZW codes of
the image data stand as colour indices, row by row, and extensions that no frame depends on are
left out. Library code of `image` keeps its names. -/

namespace Sky.StdImage

/-! ## Colours -/

/-- `color.NRGBA`. -/
structure NRGBA where
  r : UInt8
  g : UInt8
  b : UInt8
  a : UInt8
  deriving DecidableEq

def NRGBA.clear : NRGBA := ⟨0, 0, 0, 0⟩

/-- `color.RGBA`, premultiplied by its alpha. -/
structure RGBA where
  r : UInt8
  g : UInt8
  b : UInt8
  a : UInt8
  deriving DecidableEq

/-- `color.NRGBAModel` on premultiplied components of 16 bits. -/
def nrgbaModel (r g b a : ℕ) : NRGBA :=
  if a = 0xffff then ⟨.ofNat (r / 256), .ofNat (g / 256), .ofNat (b / 256), 0xff⟩
  else if a = 0 then .clear
  else ⟨.ofNat (r * 0xffff / a / 256), .ofNat (g * 0xffff / a / 256),
    .ofNat (b * 0xffff / a / 256), .ofNat (a / 256)⟩

def RGBA.convert (c : RGBA) : NRGBA :=
  nrgbaModel (c.r.toNat * 257) (c.g.toNat * 257) (c.b.toNat * 257) (c.a.toNat * 257)

/-- What `draw.Draw` stores of a colour: it is premultiplied and divided again. -/
def NRGBA.drawn (c : NRGBA) : NRGBA :=
  nrgbaModel (c.r.toNat * 257 * c.a.toNat / 255) (c.g.toNat * 257 * c.a.toNat / 255)
    (c.b.toNat * 257 * c.a.toNat / 255) (c.a.toNat * 257)

/-! ## Rectangles and images -/

/-- A Go `int`. -/
def int (i : ℤ) : ℤ := i.bmod (2 ^ 64)

/-- `image.Rectangle`. -/
structure Rectangle where
  minX : ℤ
  minY : ℤ
  maxX : ℤ
  maxY : ℤ
  deriving DecidableEq

namespace Rectangle

/-- `image.Rect` -/
def rect (x₀ y₀ x₁ y₁ : ℤ) : Rectangle := ⟨min x₀ x₁, min y₀ y₁, max x₀ x₁, max y₀ y₁⟩

def dx (r : Rectangle) : ℤ := r.maxX - r.minX

def dy (r : Rectangle) : ℤ := r.maxY - r.minY

def Empty (r : Rectangle) : Prop := r.maxX ≤ r.minX ∨ r.maxY ≤ r.minY

def Contains (r : Rectangle) (x y : ℤ) : Prop :=
  r.minX ≤ x ∧ x < r.maxX ∧ r.minY ≤ y ∧ y < r.maxY

instance (r : Rectangle) : Decidable r.Empty := inferInstanceAs (Decidable (_ ∨ _))

instance (r : Rectangle) (x y : ℤ) : Decidable (r.Contains x y) :=
  inferInstanceAs (Decidable (_ ∧ _ ∧ _ ∧ _))

def intersect (r s : Rectangle) : Rectangle :=
  let t : Rectangle :=
    ⟨max r.minX s.minX, max r.minY s.minY, min r.maxX s.maxX, min r.maxY s.maxY⟩
  if t.Empty then ⟨0, 0, 0, 0⟩ else t

end Rectangle

/-- `image.NRGBA`: `At` gives the zero colour outside the bounds. -/
@[ext] structure Image where
  bounds : Rectangle
  colorAt : ℤ → ℤ → NRGBA
  outside : ∀ x y, ¬ bounds.Contains x y → colorAt x y = .clear

namespace Image

def make (r : Rectangle) (f : ℤ → ℤ → NRGBA) : Image where
  bounds := r
  colorAt x y := if r.Contains x y then f x y else .clear
  outside _ _ h := if_neg h

def newNRGBA (r : Rectangle) : Image := make r fun _ _ => .clear

/-- The colours of `f` over the image, in `r`. -/
def paint (i : Image) (r : Rectangle) (f : ℤ → ℤ → Option NRGBA) : Image :=
  make i.bounds fun x y => if r.Contains x y then (f x y).getD (i.colorAt x y) else i.colorAt x y

end Image

/-- `copyRect`: the pixels of `r` as an image at the origin. -/
def copyRect (src : Image) (r : Rectangle) : Image :=
  .make (.rect 0 0 r.dx r.dy) fun x y => (src.colorAt (r.minX + x) (r.minY + y)).drawn

/-- `image.Paletted`, with rows of the rectangle's width. -/
structure Paletted where
  rect : Rectangle
  palette : List RGBA
  pix : List UInt8
  length_pix : pix.length = rect.dx.toNat * rect.dy.toNat

def Paletted.colorIndexAt (p : Paletted) (x y : ℤ) : UInt8 :=
  p.pix[((y - p.rect.minY) * p.rect.dx + (x - p.rect.minX)).toNat]?.getD 0

/-! ## Failures -/

inductive Failure where
  | invalidInput (message : String)
  | limit (code message : String) (limit value : ℕ)
  | ffi (message : String)
  | panicked
  deriving DecidableEq

def imageMaxPixels : ℕ := 100000000
def imageMaxFrames : ℕ := 1000
def imageMaxFramePixels : ℕ := 250000000

def imageCodeTooManyPixels : String := "too_many_pixels"
def imageCodeTooManyFrames : String := "too_many_frames"
def imageCodeTooManyFramePixels : String := "too_many_frame_pixels"

def imageLimitErr (op code what : String) (limit value : ℕ) : Failure :=
  .limit code (op ++ ": the image has " ++ toString value ++ " " ++ what ++ ", over the limit of " ++
    toString limit ++ " (" ++ code ++ ")") limit value

def imageCheckPixels (op : String) (w h : ℕ) : Except Failure Unit :=
  if w * h > imageMaxPixels then
    .error (imageLimitErr op imageCodeTooManyPixels "pixels" imageMaxPixels (w * h))
  else .ok ()

/-! ## The blocks of a GIF -/

/-- An integer of two bytes, the low one first. -/
def le16 (lo hi : UInt8) : ℕ := lo.toNat + 256 * hi.toNat

/-- How many colours the table behind a packed field has. -/
def tableSize (packed : UInt8) : ℕ :=
  if packed &&& 0x80 ≠ 0 then 2 ^ ((packed &&& 7).toNat + 1) else 0

/-- A frame: its graphic control extension, image descriptor and colour table, the minimum code
size of its data, and the data as colour indices. -/
structure Block where
  gce : Option (Vector UInt8 8)
  descriptor : Vector UInt8 10
  table : List UInt8
  lit : UInt8
  pixels : List UInt8
  length_table : table.length = 3 * tableSize descriptor[9]
  deriving DecidableEq

/-- A GIF: its header with the logical screen descriptor, the global colour table, the loop count
of its NETSCAPE extension and its frames. -/
structure Gif where
  header : Vector UInt8 13
  global : List UInt8
  loop : Option (UInt8 × UInt8)
  blocks : List Block
  length_global : global.length = 3 * tableSize header[10]
  deriving DecidableEq

namespace Gif

def width (data : Gif) : ℕ := le16 data.header[6] data.header[7]

def height (data : Gif) : ℕ := le16 data.header[8] data.header[9]

end Gif

/-! ## The scanner -/

def gifDisposalNone : UInt8 := 1
def gifDisposalBackground : UInt8 := 2
def gifDisposalPrevious : UInt8 := 3

structure FrameInfo where
  gce : Option (Vector UInt8 8)
  delay : ℕ
  disposal : UInt8
  rect : Rectangle

structure ScanResult where
  width : ℕ
  height : ℕ
  loopCount : ℤ
  frames : List FrameInfo

/-- A limit of 0 disables its check. -/
structure ScanLimits where
  maxFrames : ℕ
  maxFramePixels : ℕ
  stopAfter : ℕ

def gifDefaultLimits : ScanLimits := ⟨imageMaxFrames, imageMaxFramePixels, 0⟩

def Block.left (b : Block) : ℕ := le16 b.descriptor[1] b.descriptor[2]
def Block.top (b : Block) : ℕ := le16 b.descriptor[3] b.descriptor[4]
def Block.width (b : Block) : ℕ := le16 b.descriptor[5] b.descriptor[6]
def Block.height (b : Block) : ℕ := le16 b.descriptor[7] b.descriptor[8]

def Block.rect (b : Block) : Rectangle :=
  .rect b.left b.top (b.left + b.width : ℕ) (b.top + b.height : ℕ)

def Block.info (b : Block) : FrameInfo :=
  match b.gce with
  | none => ⟨none, 0, 0, b.rect⟩
  | some gce => ⟨gce, le16 gce[4] gce[5], (gce[3] >>> 2) &&& 7, b.rect⟩

def scanFrames (op : String) (data : Gif) (lim : ScanLimits) :
    List FrameInfo → List Block → Except Failure (List FrameInfo)
  | frames, [] => .ok frames
  | frames, b :: bs =>
      let frames := frames ++ [b.info]
      let n := frames.length
      let screenPx := data.width * data.height
      if lim.maxFrames > 0 ∧ n > lim.maxFrames then
        .error (imageLimitErr op imageCodeTooManyFrames "frames (or more)" lim.maxFrames n)
      else if lim.maxFramePixels > 0 ∧ n * screenPx > lim.maxFramePixels then
        .error (imageLimitErr op imageCodeTooManyFramePixels ("pixels in its frames (or more), " ++
          toString data.width ++ "x" ++ toString data.height ++ " x " ++ toString n ++ " frames,")
          lim.maxFramePixels (n * screenPx))
      else if lim.stopAfter > 0 ∧ n ≥ lim.stopAfter then .ok frames
      else scanFrames op data lim frames bs

/-- The characters of a header. -/
def ascii (s : String) : List UInt8 := s.toList.map fun c => UInt8.ofNat c.val.toNat

def gifScan (op : String) (data : Gif) (lim : ScanLimits) : Except Failure ScanResult := do
  let bad := fun msg => Except.error (Failure.invalidInput (op ++ ": not a decodable GIF: " ++ msg))
  let magic := data.header.toList.take 6
  if magic ≠ ascii "GIF87a" ∧ magic ≠ ascii "GIF89a" then
    bad "no GIF header"
  else if data.width = 0 ∨ data.height = 0 then
    bad "zero logical screen size"
  else
    imageCheckPixels op data.width data.height
    let frames ← scanFrames op data lim [] data.blocks
    if frames = [] then
      bad "no image"
    else
      .ok ⟨data.width, data.height, (data.loop.elim (-1) fun l => le16 l.1 l.2), frames⟩

/-! ## Decoding a frame -/

/-- The colours of a table, all opaque. -/
def colorTable : List UInt8 → List RGBA
  | r :: g :: b :: rest => ⟨r, g, b, 0xff⟩ :: colorTable rest
  | _ => []

/-- A palette with a transparent entry. -/
def transparentAt (palette : List RGBA) (i : ℕ) : List RGBA :=
  if i < palette.length then palette.set i ⟨0, 0, 0, 0⟩
  else palette ++ List.replicate (i + 1 - palette.length) ⟨0, 0, 0, 0⟩

/-- The palette that `image/gif` reads for a frame. -/
def Gif.palette (data : Gif) (b : Block) : List RGBA :=
  let table := colorTable (if b.descriptor[9] &&& 0x80 ≠ 0 then b.table else data.global)
  match b.gce with
  | none => table
  | some gce => if gce[3] &&& 1 ≠ 0 then transparentAt table gce[6].toNat else table

/-- `gif.Decode` of the header and one frame. -/
def decodeFrame (data : Gif) (b : Block) : Except String Paletted :=
  let palette := data.palette b
  if b.gce.any fun gce => gce[2] ≠ 4 ∨ gce[7] ≠ 0 then
    .error "gif: invalid graphic control extension block"
  else if b.left + b.width > data.width ∨ b.top + b.height > data.height then
    .error "gif: frame bounds larger than image bounds"
  else if b.descriptor[9] &&& 0x80 = 0 ∧ data.global = [] then
    .error "gif: no color table"
  else if b.lit < 2 ∨ b.lit > 8 then
    .error ("gif: pixel size in decode out of range: " ++ toString b.lit.toNat)
  else if h : b.pixels.length = b.rect.dx.toNat * b.rect.dy.toNat then
    if b.pixels.any fun i => palette.length ≤ i.toNat then .error "gif: invalid pixel value"
    else .ok ⟨b.rect, palette, b.pixels, h⟩
  else if b.pixels.length < b.rect.dx.toNat * b.rect.dy.toNat then
    .error "gif: not enough image data"
  else
    .error "gif: too much image data"

/-! ## Composing -/

/-- The logical screen, and the area under a frame that is taken back. -/
structure Composer where
  screen : Image
  saved : Option Image

def newGifComposer (w h : ℕ) : Composer := ⟨.newNRGBA (.rect 0 0 w h), none⟩

/-- The entries of a palette by index; there are none beyond it. -/
def Paletted.pal (p : Paletted) (i : UInt8) : NRGBA := (p.palette[i.toNat]?.map RGBA.convert).getD .clear

/-- The screen with the frame drawn over it, and the screen for the next frame. -/
def Composer.compose (c : Composer) (frame : Paletted) (disposal : UInt8) : Image × Composer :=
  let r := frame.rect.intersect c.screen.bounds
  let saved := if disposal = gifDisposalPrevious then some (Image.make r c.screen.colorAt) else c.saved
  let out := c.screen.paint r fun x y =>
    let col := frame.pal (frame.colorIndexAt x y)
    if col.a = 0 then none else some col
  if disposal = gifDisposalBackground then
    (out, ⟨out.paint r fun _ _ => some .clear, saved⟩)
  else if disposal = gifDisposalPrevious then
    (out, ⟨out.paint r fun x y => saved.map fun s => s.colorAt x y, none⟩)
  else
    (out, ⟨out, saved⟩)

section

variable {σ : Type}

/-- The frames from the `i`-th on: each is decoded and composed, and `fn` called with it. -/
def eachFrameFrom (op : String) (data : Gif) (fn : ℕ → Image → σ → Except Failure σ) :
    ℕ → Composer → List (FrameInfo × Block) → σ → Except Failure σ
  | _, _, [], st => .ok st
  | i, c, (f, b) :: fs, st =>
      if i ≥ imageMaxFrames then
        .error (imageLimitErr op imageCodeTooManyFrames "frames (or more)" imageMaxFrames (i + 1))
      else
        match decodeFrame data b with
        | .error e => .error (.invalidInput (op ++ ": not a decodable GIF: frame " ++
            toString (i + 1) ++ ": " ++ e))
        | .ok frame => do
            let (composed, c) := c.compose frame f.disposal
            let st ← fn i composed st
            eachFrameFrom op data fn (i + 1) c fs st

def gifEachFrame (op : String) (data : Gif) (s : ScanResult)
    (fn : ℕ → Image → σ → Except Failure σ) (st : σ) : Except Failure σ :=
  eachFrameFrom op data fn 0 (newGifComposer s.width s.height) (s.frames.zip data.blocks) st

end

end Sky.StdImage
