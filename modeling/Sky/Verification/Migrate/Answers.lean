import Sky.Library.Run
import Sky.Model.Decisions

/-! # What answers make of a diff

The renames and the confirmed drops come after the ops of the diff, in the order of the answers. The
columns that are renamed to are no longer added, and an answered drop is no longer quarantined. -/

namespace Sky.Migrate

open Library

variable {d d' d₀ : Diff} {a : Answer} {as : List Answer} {op : MigOp} {table column : String}

/-- The op but for the DEFAULT of an added column. -/
def MigOp.shape : MigOp → MigOp
  | .addColumn table column type nullable unique _ =>
      .addColumn table column type nullable unique none
  | op => op

@[simp] theorem MigOp.adds_shape (op : MigOp) : op.shape.adds table column = op.adds table column := by
  cases op <;> rfl

@[simp] theorem MigOp.shape_setDefault (default : Default) (op : MigOp) :
    (op.setDefault table column default).shape = op.shape := by
  cases op with
  | addColumn t c type nullable unique old =>
      simp only [MigOp.setDefault]
      split <;> rfl
  | _ => rfl

/-- The op that the answer appends. -/
def Answer.move? : Answer → Option MigOp
  | .rename table source target => some (.renameColumn table source target)
  | .confirmDrop table column => some (.dropColumn table column)
  | .setDefault _ _ _ => none

/-- The drop that the answer is about. -/
def Answer.drop? : Answer → Option (String × String)
  | .rename table source _ => some (table, source)
  | .confirmDrop table column => some (table, column)
  | .setDefault _ _ _ => none

/-- The added column that the answer renames to. -/
def Answer.target? : Answer → Option (String × String)
  | .rename table _ target => some (table, target)
  | _ => none

/-- The answer takes the op out of the ops. -/
def Answer.replaces (a : Answer) (op : MigOp) : Bool := a.target?.any fun q => op.adds q.1 q.2

/-- The answer takes the op out of the quarantined ones. -/
def Answer.takes (a : Answer) (op : MigOp) : Bool := a.drop?.any fun q => op.drops q.1 q.2

theorem Answer.adds_move {m : MigOp} (h : a.move? = some m) : m.adds table column = false := by
  cases a with
  | rename t source target =>
      obtain rfl := Option.some.inj h
      rfl
  | confirmDrop t c =>
      obtain rfl := Option.some.inj h
      rfl
  | setDefault t c default => cases h

/-- The answers have been given to a diff. -/
structure Resolved (d₀ : Diff) (as : List Answer) (d : Diff) : Prop where
  ops : d.ops.map MigOp.shape =
    (d₀.ops.map MigOp.shape).filter (fun op => as.all fun a => !a.replaces op) ++
      as.filterMap Answer.move?
  destructive : d.destructive = d₀.destructive.filter fun op => as.all fun a => !a.takes op
  drops : (as.filterMap Answer.drop?).Nodup
  quarantined : ∀ q ∈ as.filterMap Answer.drop?, .dropColumn q.1 q.2 ∈ d₀.destructive
  targets : (as.filterMap Answer.target?).Nodup
  added : ∀ q ∈ as.filterMap Answer.target?, ∃ op ∈ d₀.ops, op.adds q.1 q.2 = true

theorem Resolved.nil (d : Diff) : Resolved d [] d where
  ops := by simp
  destructive := by simp
  drops := List.nodup_nil
  quarantined := by simp
  targets := List.nodup_nil
  added := by simp

theorem Diff.mem_dropDecisions {q : DropDecision} (h : q ∈ d.dropDecisions) :
    .dropColumn q.table q.column ∈ d.destructive ∧
      ∀ c ∈ q.renameCandidates, ∃ op ∈ d.ops, op.adds q.table c = true := by
  obtain ⟨op, hop, hq⟩ := List.mem_filterMap.1 h
  cases op with
  | dropColumn t c =>
      obtain rfl := Option.some.inj hq
      refine ⟨hop, fun c' hc' => ?_⟩
      obtain ⟨op, hop, hadded⟩ := List.mem_filterMap.1 (List.mem_of_mem_filter hc')
      exact ⟨op, hop, by simp [MigOp.adds, hadded]⟩
  | _ => cases hq

/-- A drop that an answer may still be about. -/
theorem Resolved.fresh (h : Resolved d₀ as d) (hdrop : .dropColumn table column ∈ d.destructive) :
    .dropColumn table column ∈ d₀.destructive ∧ (table, column) ∉ as.filterMap Answer.drop? := by
  rw [h.destructive] at hdrop
  obtain ⟨hmem, hall⟩ := List.mem_filter.1 hdrop
  refine ⟨hmem, fun hanswered => ?_⟩
  obtain ⟨a, ha, hq⟩ := List.mem_filterMap.1 hanswered
  have hnot := List.all_eq_true.1 hall a ha
  simp [Answer.takes, hq, MigOp.drops] at hnot

/-- A column that may still be renamed to. -/
theorem Resolved.offered (h : Resolved d₀ as d) (hop : op ∈ d.ops) (hadds : op.adds table column = true) :
    (∃ op ∈ d₀.ops, op.adds table column = true) ∧ (table, column) ∉ as.filterMap Answer.target? := by
  have hmem : op.shape ∈ d.ops.map MigOp.shape := List.mem_map_of_mem hop
  rw [h.ops] at hmem
  rcases List.mem_append.1 hmem with hmem | hmove
  · obtain ⟨hmem, hall⟩ := List.mem_filter.1 hmem
    obtain ⟨op', hop', hshape⟩ := List.mem_map.1 hmem
    refine ⟨⟨op', hop', ?_⟩, fun htarget => ?_⟩
    · rw [← MigOp.adds_shape, hshape, MigOp.adds_shape]
      exact hadds
    · obtain ⟨a, ha, hq⟩ := List.mem_filterMap.1 htarget
      have hnot := List.all_eq_true.1 hall a ha
      simp [Answer.replaces, hq, hadds] at hnot
  · obtain ⟨a, _, hmove⟩ := List.mem_filterMap.1 hmove
    rw [← MigOp.adds_shape, Answer.adds_move hmove] at hadds
    cases hadds

theorem filterMap_snoc_nodup {α β : Type*} {f : α → Option β} {l : List α} {x : α}
    (h : (l.filterMap f).Nodup) (hfresh : ∀ y, f x = some y → y ∉ l.filterMap f) :
    ((l ++ [x]).filterMap f).Nodup := by
  rw [List.filterMap_append]
  refine List.nodup_append.2 ⟨h, ?_, fun y hy z hz heq => ?_⟩
  · cases hx : f x with
    | none => simp [hx]
    | some y => simp [hx]
  · simp only [List.filterMap_cons, List.filterMap_nil] at hz
    cases hx : f x with
    | none => simp [hx] at hz
    | some w =>
        simp only [hx, List.mem_singleton] at hz
        exact hfresh w hx (hz ▸ heq ▸ hy)

theorem forall_filterMap_snoc {α β : Type*} {f : α → Option β} {l : List α} {x : α} {P : β → Prop}
    (h : ∀ y ∈ l.filterMap f, P y) (hx : ∀ y, f x = some y → P y) :
    ∀ y ∈ (l ++ [x]).filterMap f, P y := by
  intro y hy
  rw [List.filterMap_append] at hy
  rcases List.mem_append.1 hy with hy | hy
  · exact h y hy
  · obtain ⟨z, hz, hzy⟩ := List.mem_filterMap.1 hy
    obtain rfl := List.mem_singleton.1 hz
    exact hx y hzy

/-- The ops are those that stay, and the answer's own. -/
theorem Diff.answer_ops (hoffers : d.Offers a) : (d.answer a).ops.map MigOp.shape =
    (d.ops.map MigOp.shape).filter (fun op => !a.replaces op) ++ a.move?.toList := by
  cases a with
  | rename t source target =>
      simp only [Diff.answer, Diff.rename, List.map_append, List.filter_map]
      congr 3
      funext op
      simp [Answer.replaces, Answer.target?]
  | confirmDrop t c =>
      obtain ⟨q, hq, rfl, rfl⟩ := hoffers
      have hany : d.destructive.any (MigOp.drops q.table q.column) = true :=
        List.any_eq_true.2 ⟨_, (Diff.mem_dropDecisions hq).1, by simp [MigOp.drops]⟩
      simp only [Diff.answer, Diff.confirmDrop, hany, if_true, List.map_append]
      congr 1
      exact (List.filter_eq_self.2 fun op _ => rfl).symm
  | setDefault t c default =>
      simp only [Diff.answer, Diff.setDefault, List.map_map]
      have hshape : MigOp.shape ∘ MigOp.setDefault t c default = MigOp.shape := by
        funext op
        simp
      rw [hshape]
      simp [Answer.replaces, Answer.target?, Answer.move?]

theorem Diff.answer_destructive (d : Diff) (a : Answer) :
    (d.answer a).destructive = d.destructive.filter fun op => !a.takes op := by
  cases a with
  | rename t source target => simp [Diff.answer, Diff.rename, Answer.takes, Answer.drop?]
  | confirmDrop t c =>
      simp only [Diff.answer, Diff.confirmDrop]
      split <;> simp [Answer.takes, Answer.drop?]
  | setDefault t c default => simp [Diff.answer, Diff.setDefault, Answer.takes, Answer.drop?]

theorem Diff.offers_drop (hoffers : d.Offers a) {q : String × String} (hq : a.drop? = some q) :
    .dropColumn q.1 q.2 ∈ d.destructive := by
  cases a with
  | rename t source target =>
      obtain rfl := Option.some.inj hq
      obtain ⟨p, hp, rfl, rfl, _⟩ := hoffers
      exact (Diff.mem_dropDecisions hp).1
  | confirmDrop t c =>
      obtain rfl := Option.some.inj hq
      obtain ⟨p, hp, rfl, rfl⟩ := hoffers
      exact (Diff.mem_dropDecisions hp).1
  | setDefault t c default => cases hq

theorem Diff.offers_target (hoffers : d.Offers a) {q : String × String} (hq : a.target? = some q) :
    ∃ op ∈ d.ops, op.adds q.1 q.2 = true := by
  cases a with
  | rename t source target =>
      obtain rfl := Option.some.inj hq
      obtain ⟨p, hp, rfl, rfl, htarget⟩ := hoffers
      exact (Diff.mem_dropDecisions hp).2 target htarget
  | confirmDrop t c => cases hq
  | setDefault t c default => cases hq

theorem Resolved.step (h : Resolved d₀ as d) (hstep : Answered d a d') :
    Resolved d₀ (as ++ [a]) d' := by
  obtain ⟨hoffers, rfl⟩ := hstep
  constructor
  · -- No appended op adds a column, so the answer takes out none of them.
    have hmoves : (as.filterMap Answer.move?).filter (fun op => !a.replaces op) =
        as.filterMap Answer.move? := by
      refine List.filter_eq_self.2 fun op hop => ?_
      obtain ⟨b, _, hmove⟩ := List.mem_filterMap.1 hop
      simp [Answer.replaces, Answer.adds_move hmove]
    rw [Diff.answer_ops hoffers, h.ops, List.filter_append, hmoves, List.filter_filter,
      List.filterMap_append, List.append_assoc]
    congr 2
    funext op
    simp [Bool.and_comm]
  · rw [Diff.answer_destructive, h.destructive, List.filter_filter]
    congr 1
    funext op
    simp [Bool.and_comm]
  · exact filterMap_snoc_nodup h.drops fun q hq => (h.fresh (Diff.offers_drop hoffers hq)).2
  · exact forall_filterMap_snoc h.quarantined fun q hq =>
      (h.fresh (Diff.offers_drop hoffers hq)).1
  · refine filterMap_snoc_nodup h.targets fun q hq => ?_
    obtain ⟨op, hop, hadds⟩ := Diff.offers_target hoffers hq
    exact (h.offered hop hadds).2
  · refine forall_filterMap_snoc h.added fun q hq => ?_
    obtain ⟨op, hop, hadds⟩ := Diff.offers_target hoffers hq
    exact (h.offered hop hadds).1

theorem resolved_of_run (h : Run Answered d₀ as d) : Resolved d₀ as d :=
  h.history (P := Resolved d₀) (fun _ _ _ _ hresolved hstep => hresolved.step hstep) (.nil d₀)

end Sky.Migrate
