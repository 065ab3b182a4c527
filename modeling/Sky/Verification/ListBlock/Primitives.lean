import Sky.Library.Run
import Sky.Model.ListBlock
import Sky.Library.Tasks

/-! # What holds of the memory, and what each update keeps

No list that exists reaches below the frontier of its block, and only one task at a time
writes there. -/

namespace Sky.ListBlock

open Library

/-! ## The invariant -/

section

variable {α : Type*}

/-- The slice is a window of an array of its element type. -/
def Slice.InObj (xs : Slice) (o : Obj α) : Prop :=
  xs.len ≤ xs.cap ∧ xs.off + xs.cap ≤ o.cells.length ∧ (0 < xs.len → o.size = xs.elem)

def State.Window (s : State α) (xs : Slice) : Prop := ∃ o, s.heap[xs.obj]? = some o ∧ xs.InObj o

/-- The array is not freed. -/
def State.Alive (s : State α) (i : ObjId) : Prop := ∃ o, s.heap[i]? = some o ∧ o.live = true

/-- The state of a block describes its array. -/
def State.Describes (s : State α) (b : BlockState) : Prop :=
  0 < b.cap ∧ ∃ o, s.heap[b.slot0]? = some o ∧ o.cells.length = b.cap ∧ o.size = b.elemSize

/-- The lists of an operation exist and are of one element type. -/
structure Op.Typed (zero : α) (built : List Slice) (op : Op α) : Prop where
  built : ∀ xs ∈ op.slices, xs ∈ built
  elem : ∀ xs ∈ op.slices, xs.elem = op.ys.elem
  sized : op.ys.elem = 0 → ∀ x, op.front = .value x → x = zero

/-- The operation may take slots of a block. -/
structure Op.Eligible (op : Op α) : Prop where
  elem : 0 < op.ys.elem
  front : 0 < op.front.len
  long : 0 < op.ys.len
  full : op.ys.len = op.ys.cap

/-- The block ends where the list ends. -/
def Op.EndsOn (op : Op α) (b : BlockState) : Prop :=
  b.slot0 = op.ys.obj ∧ b.cap = op.ys.off + op.ys.len

/-- The slots in front of the list, from the frontier on, are the operation's own. -/
structure Op.Owns (built : List Slice) (op : Op α) (b : BlockState) : Prop where
  ends : op.EndsOn b
  slots : b.frontier + op.front.len = op.ys.off
  unseen : ∀ xs ∈ built, xs.obj = op.ys.obj → op.ys.off ≤ xs.off

/-- What a task knows at each point of its operation. -/
def Pc.Sound (zero : α) (s : State α) : Pc α → Prop
  | .start op => op.Typed zero s.built
  | .lookup op _ | .check op _ _ => op.Typed zero s.built ∧ op.Eligible
  | .cas op st => op.Typed zero s.built ∧ op.Eligible ∧ ∃ b, s.states[st]? = some b ∧ op.EndsOn b
  | .write op st => op.Typed zero s.built ∧ op.Eligible ∧ ∃ b, s.states[st]? = some b ∧ op.Owns s.built b
  | .copy op => op.Typed zero s.built ∧ 0 < op.front.len ∧ 0 < op.ys.elem
  | .idle | .regLoad .. | .regTest .. | .regCas .. | .regMove .. | .regStore1 .. | .regStore0 .. =>
      True

/-- The array a task is about to write to. -/
def Pc.writes : Pc α → Option ObjId
  | .write op _ => some op.ys.obj
  | _ => none

/-- What every step keeps. -/
structure Inv (zero : α) (s : State α) : Prop where
  apart : ∀ (i j : ObjId) (o o' : Obj α), s.heap[i]? = some o → s.heap[j]? = some o' → o.live → o'.live → i ≠ j →
    o.Apart o'
  empty : ∃ o, s.heap[nilObj]? = some o ∧ o.cells = [] ∧ o.live = true
  sized : ∀ o ∈ s.heap, o.size = 0 → ∀ v ∈ o.cells, v = zero
  window : ∀ xs ∈ s.built, s.Window xs
  rooted : ∀ xs ∈ s.roots, xs ∈ s.built ∧ s.Alive xs.obj
  sound : ∀ pc ∈ s.tasks, pc.Sound zero s
  writer : ∀ (i j : TaskId) (p q : Pc α) (o : ObjId), s.tasks[i]? = some p → s.tasks[j]? = some q → p.writes = some o →
    q.writes = some o → i = j
  describes : ∀ b ∈ s.states, s.Describes b
  oneState : ∀ (i j : StateId) (b b' : BlockState), s.states[i]? = some b → s.states[j]? = some b' →
    b.slot0 = b'.slot0 → i = j
  above : ∀ b ∈ s.states, ∀ xs ∈ s.built, xs.obj = b.slot0 → b.frontier ≤ xs.off
  results : ∀ p ∈ s.results, p.1.Typed zero s.built ∧ p.2 ∈ s.built ∧ s.read p.2 = s.contents p.1
  claimed : ∀ p ∈ s.claims, ∃ b ∈ s.states, b.slot0 = p.1 ∧ b.frontier ≤ p.2
  distinct : s.claims.Nodup

theorem inv_init (zero : α) (k : ℕ) : Inv zero (State.init k) where
  apart := by
    intro i j o o' hi hj _ _ hne
    simp only [State.init, List.getElem?_singleton] at hi hj
    split at hi <;> split at hj <;> simp_all
  empty := ⟨_, rfl, rfl, rfl⟩
  sized := by simp [State.init]
  window := by simp [State.init]
  rooted := by simp [State.roots, State.init, List.flatMap_replicate, Pc.slices]
  sound := by
    intro pc hpc
    obtain rfl := List.eq_of_mem_replicate hpc
    trivial
  writer := by
    intro i j p q o hp _ hw _
    obtain rfl := List.eq_of_mem_replicate (List.mem_of_getElem? hp)
    simp [Pc.writes] at hw
  describes := by simp [State.init]
  oneState := by simp [State.init]
  above := by simp [State.init]
  results := by simp [State.init]
  claimed := by simp [State.init]
  distinct := by simp [State.init]

end

variable {α : Type*} {zero : α} {s : State α}

/-! ## Reading -/

theorem Op.ys_mem_slices (op : Op α) : op.ys ∈ op.slices := by
  unfold Op.slices
  cases op.front <;> simp

theorem Op.front_mem_slices {op : Op α} {xs : Slice} (h : op.front = .list xs) :
    xs ∈ op.slices := by
  simp [Op.slices, h]

/-- What an operation stands for depends on its lists only. -/
theorem State.contents_congr {s' : State α} {op : Op α}
    (h : ∀ xs ∈ op.slices, s'.read xs = s.read xs) : s'.contents op = s.contents op := by
  have hfront : s'.frontContents op.front = s.frontContents op.front := by
    cases hf : op.front with
    | value x => rfl
    | list xs => exact h xs (Op.front_mem_slices hf)
  rw [State.contents, State.contents, hfront, h op.ys op.ys_mem_slices]

theorem Op.Typed.mono {op : Op α} {built built' : List Slice} (h : op.Typed zero built)
    (hsub : built ⊆ built') : op.Typed zero built' where
  built := fun xs hxs => hsub (h.built xs hxs)
  elem := h.elem
  sized := h.sized

theorem Pc.mem_slices_roots {pc : Pc α} {xs : Slice} (hpc : pc ∈ s.tasks) (hxs : xs ∈ pc.slices) :
    xs ∈ s.roots :=
  List.mem_append_right _ (List.mem_flatMap.2 ⟨pc, hpc, hxs⟩)

/-! ## Tasks and histories -/

/-- The task writes to an array that no other task is about to write to. -/
def State.Alone (s : State α) (i : TaskId) (pc : Pc α) : Prop :=
  ∀ j q o, i ≠ j → s.tasks[j]? = some q → pc.writes = some o → q.writes = some o → False

theorem Inv.setTask (h : Inv zero s) {i : TaskId} {pc : Pc α} (hsound : pc.Sound zero s)
    (hroots : ∀ xs ∈ pc.slices, xs ∈ s.built ∧ s.Alive xs.obj) (halone : s.Alone i pc) :
    Inv zero (s.setTask i pc) :=
  { h with
    rooted := by
      intro xs hxs
      rcases List.mem_append.1 hxs with hheld | htask
      · exact h.rooted xs (List.mem_append_left _ hheld)
      · obtain ⟨q, hq, hmem⟩ := List.mem_flatMap.1 htask
        rcases List.mem_or_eq_of_mem_set hq with hold | rfl
        · exact h.rooted xs (Pc.mem_slices_roots hold hmem)
        · exact hroots xs hmem
    sound := by
      intro q hq
      rcases List.mem_or_eq_of_mem_set hq with hold | rfl
      · exact h.sound q hold
      · exact hsound
    writer := by
      intro j k p q o hp hq hpo hqo
      rcases getElem?_set_cases hp with ⟨hj, rfl⟩ | ⟨hj, hp'⟩ <;>
        rcases getElem?_set_cases hq with ⟨hk, rfl⟩ | ⟨hk, hq'⟩
      · exact hj.symm.trans hk
      · exact (halone k q o hk hq' hpo hqo).elim
      · exact (halone j p o hj hp' hqo hpo).elim
      · exact h.writer j k p q o hp' hq' hpo hqo }

theorem State.Alone.of_none {i : TaskId} {pc : Pc α} (h : pc.writes = none) : s.Alone i pc := by
  intro j q o _ _ hw
  simp [h] at hw

/-- A task goes on with the lists it holds. -/
theorem Inv.advance (h : Inv zero s) {i : TaskId} {p pc : Pc α} (hp : s.tasks[i]? = some p)
    (hslices : pc.slices ⊆ p.slices) (hsound : pc.Sound zero s) (hwrites : pc.writes = none) :
    Inv zero (s.setTask i pc) :=
  h.setTask hsound
    (fun xs hxs => h.rooted xs (Pc.mem_slices_roots (List.mem_of_getElem? hp) (hslices hxs)))
    (.of_none hwrites)

theorem Inv.hold (h : Inv zero s) {r : Slice} (hr : r ∈ s.built) (halive : s.Alive r.obj) :
    Inv zero (s.hold r) :=
  { h with
    rooted := by
      intro xs hxs
      rcases List.mem_cons.1 hxs with rfl | hold
      · exact ⟨hr, halive⟩
      · exact h.rooted xs hold }

theorem Inv.record (h : Inv zero s) {op : Op α} {r : Slice} (hop : op.Typed zero s.built)
    (hr : r ∈ s.built) (hread : s.read r = s.contents op) : Inv zero (s.record op r) :=
  { h with
    results := by
      intro p hp
      rcases List.mem_cons.1 hp with rfl | hold
      · exact ⟨hop, hr, hread⟩
      · exact h.results p hold }

theorem Inv.setTable (h : Inv zero s) (set way : ℕ) (st : StateId) :
    Inv zero (s.setTable set way st) :=
  { h with rooted := h.rooted }

theorem Inv.drop (h : Inv zero s) (xs : Slice) : Inv zero { s with held := s.held.erase xs } :=
  { h with
    rooted := by
      intro ys hys
      rcases List.mem_append.1 hys with hheld | htask
      · exact h.rooted ys (List.mem_append_left _ (List.mem_of_mem_erase hheld))
      · exact h.rooted ys (List.mem_append_right _ htask) }

/-- A new list lies above the frontier, and above what any task is about to write. -/
theorem Inv.build (h : Inv zero s) {r : Slice} (hwindow : s.Window r)
    (habove : ∀ b ∈ s.states, r.obj = b.slot0 → b.frontier ≤ r.off)
    (hunseen : ∀ op st, .write op st ∈ s.tasks → r.obj = op.ys.obj → op.ys.off ≤ r.off) :
    Inv zero (s.build r) :=
  have hsub : s.built ⊆ r :: s.built := List.subset_cons_self _ _
  { h with
    window := by
      intro xs hxs
      rcases List.mem_cons.1 hxs with rfl | hold
      · exact hwindow
      · exact h.window xs hold
    rooted := by
      intro xs hxs
      exact ⟨hsub (h.rooted xs hxs).1, (h.rooted xs hxs).2⟩
    sound := by
      intro pc hpc
      have hpcSound := h.sound pc hpc
      cases pc with
      | start op => exact hpcSound.mono hsub
      | lookup op way => exact ⟨hpcSound.1.mono hsub, hpcSound.2⟩
      | check op way st => exact ⟨hpcSound.1.mono hsub, hpcSound.2⟩
      | cas op st => exact ⟨hpcSound.1.mono hsub, hpcSound.2⟩
      | copy op => exact ⟨hpcSound.1.mono hsub, hpcSound.2⟩
      | write op st =>
          obtain ⟨htyped, helig, b, hb, hown⟩ := hpcSound
          refine ⟨htyped.mono hsub, helig, b, hb, hown.ends, hown.slots, ?_⟩
          intro xs hxs hobj
          rcases List.mem_cons.1 hxs with rfl | hold
          · exact hunseen op st hpc hobj
          · exact hown.unseen xs hold hobj
      | idle => trivial
      | regLoad r st way => trivial
      | regTest r st way old => trivial
      | regCas r st way old => trivial
      | regMove r st => trivial
      | regStore1 r st old => trivial
      | regStore0 r st => trivial
    above := by
      intro b hb xs hxs hobj
      rcases List.mem_cons.1 hxs with rfl | hold
      · exact habove b hb hobj
      · exact h.above b hb xs hold hobj
    results := by
      intro p hp
      obtain ⟨htyped, hr, hread⟩ := h.results p hp
      exact ⟨htyped.mono hsub, hsub hr, hread⟩ }

/-! ## New arrays and states -/

theorem getElem?_push {β : Type*} {l : List β} {a b : β} {i : ℕ} (h : l[i]? = some b) :
    (l ++ [a])[i]? = some b := by
  rw [List.getElem?_append_left (List.getElem?_eq_some_iff.1 h).1, h]

theorem getElem?_push_cases {β : Type*} {l : List β} {a b : β} {i : ℕ}
    (h : (l ++ [a])[i]? = some b) : l[i]? = some b ∨ i = l.length ∧ b = a := by
  rcases lt_trichotomy i l.length with hlt | rfl | hgt
  · exact .inl (by rwa [List.getElem?_append_left hlt] at h)
  · exact .inr ⟨rfl, by simpa using h.symm⟩
  · rw [List.getElem?_eq_none (by simpa using hgt)] at h
    cases h

theorem Obj.Apart.symm {o o' : Obj α} (h : o.Apart o') : o'.Apart o := by
  unfold Obj.Apart at *
  omega

theorem State.Window.pushObj {xs : Slice} (h : s.Window xs) (o : Obj α) :
    (s.pushObj o).Window xs := by
  obtain ⟨x, hx, hin⟩ := h
  exact ⟨x, getElem?_push hx, hin⟩

theorem State.Alive.pushObj {i : ObjId} (h : s.Alive i) (o : Obj α) : (s.pushObj o).Alive i := by
  obtain ⟨x, hx, hlive⟩ := h
  exact ⟨x, getElem?_push hx, hlive⟩

theorem State.read_pushObj {xs : Slice} (h : s.Window xs) (o : Obj α) :
    (s.pushObj o).read xs = s.read xs := by
  obtain ⟨x, hx, _⟩ := h
  have hpush : (s.pushObj o).heap[xs.obj]? = some x := getElem?_push hx
  simp only [State.read, hpush, hx]

theorem Op.Typed.window {op : Op α} (h : Inv zero s) (hop : op.Typed zero s.built) {xs : Slice}
    (hxs : xs ∈ op.slices) : s.Window xs :=
  h.window xs (hop.built xs hxs)

theorem Inv.pushObj (h : Inv zero s) {o : Obj α} (hfree : s.Free o)
    (hsized : o.size = 0 → ∀ v ∈ o.cells, v = zero) : Inv zero (s.pushObj o) :=
  { h with
    apart := by
      intro i j x y hx hy hxlive hylive hne
      rcases getElem?_push_cases hx with hx' | ⟨hi, rfl⟩ <;>
        rcases getElem?_push_cases hy with hy' | ⟨hj, rfl⟩
      · exact h.apart i j x y hx' hy' hxlive hylive hne
      · exact (hfree x (List.mem_of_getElem? hx') hxlive).symm
      · exact hfree y (List.mem_of_getElem? hy') hylive
      · exact absurd (hi.trans hj.symm) hne
    empty := by
      obtain ⟨x, hx, hempty⟩ := h.empty
      exact ⟨x, getElem?_push hx, hempty⟩
    sized := by
      intro x hx
      rcases List.mem_append.1 hx with hold | hnew
      · exact h.sized x hold
      · obtain rfl := List.mem_singleton.1 hnew
        exact hsized
    window := fun xs hxs => (h.window xs hxs).pushObj o
    rooted := fun xs hxs => ⟨(h.rooted xs hxs).1, (h.rooted xs hxs).2.pushObj o⟩
    describes := by
      intro b hb
      obtain ⟨hcap, x, hx, hshape⟩ := h.describes b hb
      exact ⟨hcap, x, getElem?_push hx, hshape⟩
    results := by
      intro p hp
      obtain ⟨htyped, hr, hread⟩ := h.results p hp
      refine ⟨htyped, hr, ?_⟩
      rw [State.read_pushObj (h.window _ hr), hread]
      exact (State.contents_congr fun xs hxs =>
        State.read_pushObj (htyped.window h hxs) o).symm }

/-- A block that no list and no state knows. -/
structure State.Fresh (s : State α) (b : BlockState) : Prop where
  describes : s.Describes b
  state : ∀ b' ∈ s.states, b'.slot0 ≠ b.slot0
  list : ∀ xs ∈ s.built, xs.obj ≠ b.slot0

theorem Pc.Sound.pushState {pc : Pc α} (h : pc.Sound zero s) (b : BlockState) :
    pc.Sound zero (s.pushState b) := by
  cases pc with
  | cas op st =>
      obtain ⟨htyped, helig, b', hb', hends⟩ := h
      exact ⟨htyped, helig, b', getElem?_push hb', hends⟩
  | write op st =>
      obtain ⟨htyped, helig, b', hb', hown⟩ := h
      exact ⟨htyped, helig, b', getElem?_push hb', hown⟩
  | idle => trivial
  | start op => exact h
  | lookup op way => exact h
  | check op way st => exact h
  | copy op => exact h
  | regLoad r st way => trivial
  | regTest r st way old => trivial
  | regCas r st way old => trivial
  | regMove r st => trivial
  | regStore1 r st old => trivial
  | regStore0 r st => trivial

theorem Inv.pushState (h : Inv zero s) {b : BlockState} (hfresh : s.Fresh b) :
    Inv zero (s.pushState b) :=
  { h with
    rooted := h.rooted
    sound := fun pc hpc => (h.sound pc hpc).pushState b
    describes := by
      intro b' hb'
      rcases List.mem_append.1 hb' with hold | hnew
      · exact h.describes b' hold
      · obtain rfl := List.mem_singleton.1 hnew
        exact hfresh.describes
    oneState := by
      intro i j x y hx hy hslot
      rcases getElem?_push_cases hx with hx' | ⟨hi, rfl⟩ <;>
        rcases getElem?_push_cases hy with hy' | ⟨hj, rfl⟩
      · exact h.oneState i j x y hx' hy' hslot
      · exact absurd hslot (hfresh.state x (List.mem_of_getElem? hx'))
      · exact absurd hslot.symm (hfresh.state y (List.mem_of_getElem? hy'))
      · exact hi.trans hj.symm
    above := by
      intro b' hb' xs hxs hobj
      rcases List.mem_append.1 hb' with hold | hnew
      · exact h.above b' hold xs hxs hobj
      · obtain rfl := List.mem_singleton.1 hnew
        exact absurd hobj (hfresh.list xs hxs)
    claimed := by
      intro p hp
      obtain ⟨b', hb', hslot⟩ := h.claimed p hp
      exact ⟨b', List.mem_append_left _ hb', hslot⟩ }

/-! ## The frontier -/

theorem State.setFrontier_getElem? {st : StateId} {b : BlockState} (hb : s.states[st]? = some b)
    (f : ℕ) {j : StateId} {x : BlockState} (hx : s.states[j]? = some x) :
    ∃ y, (s.setFrontier st b f).states[j]? = some y ∧ y.slot0 = x.slot0 ∧ y.cap = x.cap ∧
      (x.slot0 ≠ b.slot0 → y = x) := by
  have hlt := (List.getElem?_eq_some_iff.1 hb).1
  by_cases hj : st = j
  · subst hj
    obtain rfl : b = x := Option.some.inj (hb.symm.trans hx)
    exact ⟨_, List.getElem?_set_self hlt, rfl, rfl, fun hne => absurd rfl hne⟩
  · exact ⟨x, (List.getElem?_set_ne hj).trans hx, rfl, rfl, fun _ => rfl⟩

theorem Pc.Sound.setFrontier {pc : Pc α} (h : pc.Sound zero s) {st : StateId} {b : BlockState}
    (hb : s.states[st]? = some b) (f : ℕ) (hother : pc.writes ≠ some b.slot0) :
    pc.Sound zero (s.setFrontier st b f) := by
  cases pc with
  | cas op k =>
      obtain ⟨htyped, helig, x, hx, hends⟩ := h
      obtain ⟨y, hy, hslot, hcap, _⟩ := State.setFrontier_getElem? hb f hx
      exact ⟨htyped, helig, y, hy, hslot.trans hends.1, hcap.trans hends.2⟩
  | write op k =>
      obtain ⟨htyped, helig, x, hx, hown⟩ := h
      obtain ⟨y, hy, _, _, hsame⟩ := State.setFrontier_getElem? hb f hx
      have hne : x.slot0 ≠ b.slot0 := by
        intro heq
        exact hother (congrArg some (hown.ends.1.symm.trans heq))
      rw [hsame hne] at hy
      exact ⟨htyped, helig, x, hy, hown⟩
  | idle => trivial
  | start op => exact h
  | lookup op way => exact h
  | check op way k => exact h
  | copy op => exact h
  | regLoad r k way => trivial
  | regTest r k way old => trivial
  | regCas r k way old => trivial
  | regMove r k => trivial
  | regStore1 r k old => trivial
  | regStore0 r k => trivial

/-- The frontier goes down, while no task is about to write below it. -/
theorem Inv.setFrontier (h : Inv zero s) {st : StateId} {b : BlockState}
    (hb : s.states[st]? = some b) {f : ℕ} (hf : f ≤ b.frontier)
    (hother : ∀ pc ∈ s.tasks, pc.writes ≠ some b.slot0) : Inv zero (s.setFrontier st b f) :=
  { h with
    rooted := h.rooted
    sound := fun pc hpc => (h.sound pc hpc).setFrontier hb f (hother pc hpc)
    describes := by
      intro x hx
      rcases List.mem_or_eq_of_mem_set hx with hold | rfl
      · exact h.describes x hold
      · exact h.describes b (List.mem_of_getElem? hb)
    oneState := by
      intro i j x y hx hy hslot
      rcases getElem?_set_cases hx with ⟨hi, rfl⟩ | ⟨hi, hx'⟩ <;>
        rcases getElem?_set_cases hy with ⟨hj, rfl⟩ | ⟨hj, hy'⟩
      · exact hi.symm.trans hj
      · exact hi.symm.trans (h.oneState st j b y hb hy' hslot)
      · exact (h.oneState i st x b hx' hb hslot).trans hj
      · exact h.oneState i j x y hx' hy' hslot
    above := by
      intro x hx xs hxs hobj
      rcases List.mem_or_eq_of_mem_set hx with hold | rfl
      · exact h.above x hold xs hxs hobj
      · exact hf.trans (h.above b (List.mem_of_getElem? hb) xs hxs hobj)
    claimed := by
      intro p hp
      obtain ⟨x, hx, hslot, hle⟩ := h.claimed p hp
      obtain ⟨j, hj⟩ := List.mem_iff_getElem?.1 hx
      obtain ⟨y, hy, hyslot, _, hsame⟩ := State.setFrontier_getElem? hb f hj
      refine ⟨y, List.mem_of_getElem? hy, hyslot.trans hslot, ?_⟩
      by_cases hxb : x.slot0 = b.slot0
      · have hst : st = j := h.oneState st j b x hb hj hxb.symm
        subst hst
        obtain rfl : b = x := Option.some.inj (hb.symm.trans hj)
        rcases getElem?_set_cases hy with ⟨_, rfl⟩ | ⟨hne, _⟩
        · exact hf.trans hle
        · exact absurd rfl hne
      · rw [hsame hxb]
        exact hle }

/-- Slots that nobody has claimed are claimed, from the frontier on. -/
theorem Inv.claim (h : Inv zero s) {b : BlockState} (hb : b ∈ s.states) {first m : ℕ}
    (hfirst : b.frontier ≤ first) (hnew : ∀ p ∈ s.claims, p.1 = b.slot0 → first + m ≤ p.2) :
    Inv zero (s.claim b.slot0 (List.range' first m)) :=
  { h with
    rooted := h.rooted
    claimed := by
      intro p hp
      rcases List.mem_append.1 hp with hclaim | hold
      · obtain ⟨k, hk, rfl⟩ := List.mem_map.1 hclaim
        have hfirstk := List.left_le_of_mem_range' hk
        exact ⟨b, hb, rfl, hfirst.trans hfirstk⟩
      · exact h.claimed p hold
    distinct := by
      have hslots : ((List.range' first m).map fun k => (b.slot0, k)).Nodup :=
        List.Nodup.map (fun k k' heq => (Prod.mk.inj heq).2) List.nodup_range'
      refine List.Nodup.append hslots h.distinct ?_
      intro p hclaim hold
      obtain ⟨k, hk, rfl⟩ := List.mem_map.1 hclaim
      have hbelow : first + m ≤ k := hnew _ hold rfl
      have hlt : k < first + m := by simpa using (List.mem_range'_1.1 hk).2
      omega }

/-! ## Writing and freeing -/

theorem getElem?_modify_cases {β : Type*} {l : List β} {f : β → β} {i j : ℕ} {b : β}
    (h : (l.modify i f)[j]? = some b) :
    ∃ a, l[j]? = some a ∧ b = if i = j then f a else a := by
  rw [List.getElem?_modify] at h
  obtain ⟨a, ha, hb⟩ := Option.map_eq_some_iff.1 h
  exact ⟨a, ha, hb.symm⟩

theorem getElem?_modify_of_some {β : Type*} {l : List β} (f : β → β) (i : ℕ) {j : ℕ} {a : β}
    (h : l[j]? = some a) : (l.modify i f)[j]? = some (if i = j then f a else a) := by
  rw [List.getElem?_modify, h]
  rfl

/-- A change of one array that leaves its place and its size. -/
structure Obj.Update (f : Obj α → Obj α) (o : Obj α) : Prop where
  base : (f o).base = o.base
  size : (f o).size = o.size
  length : (f o).cells.length = o.cells.length
  live : (f o).live = true → o.live = true

theorem Obj.Update.extent {f : Obj α → Obj α} {o : Obj α} (h : Obj.Update f o) :
    (f o).extent = o.extent := by
  rw [Obj.extent, Obj.extent, h.size, h.length]

/-- One array changes; no list that exists reads a change, and none that is held loses its
array. -/
theorem Inv.modify (h : Inv zero s) {i : ObjId} {f : Obj α → Obj α} (hi : i ≠ nilObj)
    (hupdate : ∀ o, s.heap[i]? = some o → Obj.Update f o)
    (hsized : ∀ o, s.heap[i]? = some o → o.size = 0 → ∀ v ∈ (f o).cells, v = zero)
    (hread : ∀ xs ∈ s.built, ({ s with heap := s.heap.modify i f } : State α).read xs = s.read xs)
    (hlive : ∀ xs ∈ s.roots, xs.obj = i → ∀ o, o.live = true → (f o).live = true) :
    Inv zero ({ s with heap := s.heap.modify i f } : State α) :=
  have hshape : ∀ {j : ObjId} {o : Obj α}, s.heap[j]? = some o → ∃ o' : Obj α, (s.heap.modify i f)[j]? = some o' ∧
      o'.size = o.size ∧ o'.cells.length = o.cells.length := by
    intro j o ho
    refine ⟨_, getElem?_modify_of_some f i ho, ?_⟩
    split
    · next hij =>
        subst hij
        exact ⟨(hupdate o ho).size, (hupdate o ho).length⟩
    · exact ⟨rfl, rfl⟩
  have hplace : ∀ {j : ObjId} {o : Obj α}, (s.heap.modify i f)[j]? = some o → ∃ o' : Obj α, s.heap[j]? = some o' ∧
      o.base = o'.base ∧ o.extent = o'.extent ∧ (o.live = true → o'.live = true) := by
    intro j o ho
    obtain ⟨o', ho', rfl⟩ := getElem?_modify_cases ho
    refine ⟨o', ho', ?_⟩
    split
    · next hij =>
        subst hij
        exact ⟨(hupdate o' ho').base, (hupdate o' ho').extent, (hupdate o' ho').live⟩
    · exact ⟨rfl, rfl, id⟩
  { h with
    apart := by
      intro j k x y hx hy hxlive hylive hne
      obtain ⟨x', hx', hxbase, hxext, hxlive'⟩ := hplace hx
      obtain ⟨y', hy', hybase, hyext, hylive'⟩ := hplace hy
      have := h.apart j k x' y' hx' hy' (hxlive' hxlive) (hylive' hylive) hne
      unfold Obj.Apart at *
      omega
    empty := by
      obtain ⟨o, ho, hempty⟩ := h.empty
      refine ⟨o, ?_, hempty⟩
      simpa [hi] using getElem?_modify_of_some f i ho
    sized := by
      intro o ho hsize
      obtain ⟨j, hj⟩ := List.mem_iff_getElem?.1 ho
      obtain ⟨o', ho', rfl⟩ := getElem?_modify_cases hj
      by_cases hij : i = j
      · subst hij
        rw [if_pos rfl] at hsize ⊢
        exact hsized o' ho' ((hupdate o' ho').size.symm.trans hsize)
      · rw [if_neg hij] at hsize ⊢
        exact h.sized o' (List.mem_of_getElem? ho') hsize
    window := by
      intro xs hxs
      obtain ⟨o, ho, hcap, hend, helem⟩ := h.window xs hxs
      obtain ⟨o', ho', hsize, hlen⟩ := hshape ho
      exact ⟨o', ho', hcap, hlen ▸ hend, fun hpos => hsize.trans (helem hpos)⟩
    rooted := by
      intro xs hxs
      obtain ⟨hbuilt, o, ho, holive⟩ := h.rooted xs hxs
      refine ⟨hbuilt, _, getElem?_modify_of_some f i ho, ?_⟩
      split
      · next hij => exact hlive xs hxs hij.symm o holive
      · exact holive
    describes := by
      intro b hb
      obtain ⟨hcap, o, ho, hlength, hsize⟩ := h.describes b hb
      obtain ⟨o', ho', hsize', hlen'⟩ := hshape ho
      exact ⟨hcap, o', ho', hlen'.trans hlength, hsize'.trans hsize⟩
    results := by
      intro p hp
      obtain ⟨htyped, hr, hresult⟩ := h.results p hp
      refine ⟨htyped, hr, ?_⟩
      rw [hread p.2 hr, hresult]
      exact (State.contents_congr fun xs hxs => hread xs (htyped.built xs hxs)).symm }

theorem State.read_modify_ne {i : ObjId} (f : Obj α → Obj α) {xs : Slice} (h : i ≠ xs.obj) :
    ({ s with heap := s.heap.modify i f } : State α).read xs = s.read xs := by
  simp only [State.read, List.getElem?_modify, if_neg h, id_map']

section

variable {cells vs : List α} {slot : ℕ}

theorem length_overwrite (h : slot + vs.length ≤ cells.length) :
    (cells.take slot ++ vs ++ cells.drop (slot + vs.length)).length = cells.length := by
  simp only [List.length_append, List.length_take, List.length_drop]
  omega

theorem drop_overwrite (h : slot ≤ cells.length) :
    (cells.take slot ++ vs ++ cells.drop (slot + vs.length)).drop slot =
      vs ++ cells.drop (slot + vs.length) := by
  rw [List.append_assoc]
  exact List.drop_left' (List.length_take_of_le h)

theorem drop_overwrite_above (h : slot ≤ cells.length) {off : ℕ} (hoff : slot + vs.length ≤ off) :
    (cells.take slot ++ vs ++ cells.drop (slot + vs.length)).drop off = cells.drop off := by
  obtain ⟨k, rfl⟩ := Nat.exists_eq_add_of_le hoff
  rw [← List.drop_drop, ← List.drop_drop, drop_overwrite h, List.drop_left, List.drop_drop]

end

/-- A list above what is written reads as before. -/
theorem State.read_writeCells {o : ObjId} {slot : ℕ} {vs : List α} {xs : Slice}
    (hend : ∀ x, s.heap[o]? = some x → slot + vs.length ≤ x.cells.length)
    (habove : xs.obj = o → slot + vs.length ≤ xs.off) :
    (s.writeCells o slot vs).read xs = s.read xs := by
  by_cases hobj : o = xs.obj
  · subst hobj
    simp only [State.read, State.writeCells, List.getElem?_modify]
    cases hx : s.heap[xs.obj]? with
    | none => rfl
    | some x =>
        have hslot : slot ≤ x.cells.length := (Nat.le_add_right _ _).trans (hend x hx)
        exact congrArg (List.take xs.len) (drop_overwrite_above hslot (habove rfl))
  · exact State.read_modify_ne _ hobj

theorem Inv.writeCells (h : Inv zero s) {o : ObjId} {slot : ℕ} {vs : List α} (ho : o ≠ nilObj)
    (hend : ∀ x, s.heap[o]? = some x → 0 < x.size ∧ slot + vs.length ≤ x.cells.length)
    (habove : ∀ xs ∈ s.built, xs.obj = o → slot + vs.length ≤ xs.off) :
    Inv zero (s.writeCells o slot vs) := by
  refine h.modify ho ?_ ?_ ?_ fun xs _ _ x hlive => hlive
  · intro x hx
    exact ⟨rfl, rfl, length_overwrite (hend x hx).2, id⟩
  · intro x hx hsize
    exact absurd hsize (hend x hx).1.ne'
  · intro xs hxs
    exact State.read_writeCells (fun x hx => (hend x hx).2) (habove xs hxs)

theorem State.read_free (i : ObjId) (xs : Slice) :
    ({ s with heap := s.heap.modify i fun x => { x with live := false } } : State α).read xs =
      s.read xs := by
  simp only [State.read, List.getElem?_modify]
  cases s.heap[xs.obj]? with
  | none => rfl
  | some o => by_cases hobj : i = xs.obj <;> simp [hobj]

theorem Inv.free (h : Inv zero s) {i : ObjId} (hi : i ≠ nilObj)
    (hroots : ∀ xs ∈ s.roots, xs.obj ≠ i) :
    Inv zero ({ s with heap := s.heap.modify i fun x => { x with live := false } } : State α) := by
  refine h.modify hi (fun o _ => ⟨rfl, rfl, rfl, fun hlive => by cases hlive⟩) ?_ ?_ ?_
  · intro o ho
    exact h.sized o (List.mem_of_getElem? ho)
  · intro xs _
    exact State.read_free i xs
  · intro xs hxs hobj
    exact absurd hobj (hroots xs hxs)

end Sky.ListBlock
