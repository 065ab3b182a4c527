import Sky.Library.Components

/-! # Dependency groups

`dependency_groups` of `infer.rs`: the strongly connected components of an index graph. -/

namespace Sky.Infer

/-- The successors of each index; every one of them is an index. -/
structure IndexGraph where
  edges : List (List ℕ)
  bound : ∀ out ∈ edges, ∀ w ∈ out, w < edges.length

/-- `self.edges[v]` -/
def IndexGraph.out (g : IndexGraph) (v : ℕ) : List ℕ := g.edges[v]?.getD []

structure Tarjan where
  index : ℕ → Option ℕ
  low : ℕ → ℕ
  onStack : ℕ → Bool
  /-- The top comes first. -/
  stack : List ℕ
  next : ℕ
  out : List (List ℕ)

namespace Tarjan

def start : Tarjan := ⟨fun _ => none, fun _ => 0, fun _ => false, [], 0, []⟩

/-- What `visit` does before it looks at the successors. -/
def enter (t : Tarjan) (v : ℕ) : Tarjan where
  index := Function.update t.index v (some t.next)
  low := Function.update t.low v t.next
  onStack := Function.update t.onStack v true
  stack := v :: t.stack
  next := t.next + 1
  out := t.out

def lower (t : Tarjan) (v low : ℕ) : Tarjan :=
  { t with low := Function.update t.low v (min (t.low v) low) }

/-- One successor `w` of `v`. -/
def look (visit : ℕ → Tarjan → Option Tarjan) (v : ℕ) (t : Tarjan) (w : ℕ) : Option Tarjan :=
  match t.index w with
  | none => do
      let t ← visit w t
      some (t.lower v (t.low w))
  | some iw => if t.onStack w then some (t.lower v iw) else some t

/-- `while let Some(w) = self.stack.pop()`: the rest of the stack, the flags and the group. -/
def popTo (v : ℕ) : List ℕ → (ℕ → Bool) → List ℕ → List ℕ × (ℕ → Bool) × List ℕ
  | [], onStack, group => ([], onStack, group)
  | w :: stack, onStack, group =>
      let onStack := Function.update onStack w false
      let group := group ++ [w]
      if w = v then (stack, onStack, group) else popTo v stack onStack group

/-- What `visit` does after the successors. -/
def leave (t : Tarjan) (v : ℕ) : Tarjan :=
  if some (t.low v) = t.index v then
    let (stack, onStack, group) := popTo v t.stack t.onStack []
    { t with
      stack := stack
      onStack := onStack
      out := t.out ++ [group.insertionSort (· ≤ ·)] }
  else t

/-- The recursion goes at most `fuel` deep. -/
def visit (g : IndexGraph) : ℕ → ℕ → Tarjan → Option Tarjan
  | 0, _, _ => none
  | fuel + 1, v, t => do
      let t ← (g.out v).foldlM (look (visit g fuel) v) (t.enter v)
      some (t.leave v)

end Tarjan

def dependencyGroups (fuel : ℕ) (g : IndexGraph) : Option (List (List ℕ)) := do
  let t ← (List.range g.edges.length).foldlM
    (fun t v => if (t.index v).isNone then Tarjan.visit g fuel v t else some t) Tarjan.start
  some t.out

end Sky.Infer
