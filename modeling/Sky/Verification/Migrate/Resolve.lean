import Sky.Verification.Migrate.Renames

/-! # Where an answered migration leads -/

namespace Sky.Migrate

open Library

variable {target snapshot : Schema} {d : Diff} {as : List Answer} {t prev : SchemaTable}
  {table : String}

/-! ## A table of both schemas -/

/-- No index that the diff adds to the table is on a column that is renamed to. -/
def Unindexed (target snapshot : Schema) (table : String) (as : List Answer) : Prop :=
  ∀ n, renamedTo table as n = true → ∀ ix, .addIndex table ix ∈ (diff target snapshot).ops →
    n ∉ ix.columns

section

variable {D : Type*} {fill : D} {data : String → D} (ht : target.WellFormed)
  (hs : snapshot.WellFormed) (hfound : target.table table = some t)
  (hold : snapshot.table table = some prev) (h : Resolved (diff target snapshot) as d)
  (hindexes : Unindexed target snapshot table as)

include ht hs hfound hold in
theorem changed_index {ix : SchemaIndex} (hix : ix ∈ newIndexes prev t) :
    .addIndex table ix ∈ (diff target snapshot).ops := by
  have hmem : addIndexOp table ix ∈ (diff target snapshot).ops.filter fun op => op.on = table := by
    rw [changed_ops_on ht hs hfound hold]
    exact List.mem_append_right _ (List.mem_map_of_mem hix)
  exact List.mem_of_mem_filter hmem

include ht hs hfound hold in
theorem changed_uniqueIndex {c : SchemaColumn} (hc : c ∈ t.columns) (hnew : prev.column c.name = none)
    (hunique : c.unique = true) :
    .addIndex table (uniqueIndex table c.name) ∈ (diff target snapshot).ops := by
  have hmem : addIndexOp table (uniqueIndex table c.name) ∈
      (diff target snapshot).ops.filter fun op => op.on = table := by
    rw [changed_ops_on ht hs hfound hold]
    refine List.mem_append_left _ (List.mem_append_left _ (List.mem_flatMap.2 ⟨c, ?_, ?_⟩))
    · exact List.mem_filter.2 ⟨hc, by simp [hnew]⟩
    · simp [addColumnOps, hunique]
  exact List.mem_of_mem_filter hmem

theorem SchemaTable.content_ne_none {pc : SchemaColumn} (hpc : pc ∈ prev.columns) :
    prev.content data pc.name ≠ none := by
  intro hnone
  exact SchemaTable.column_eq_none (Option.map_eq_none_iff.1 hnone) pc hpc rfl

variable (fill data) in
include ht hs hfound hold hindexes in
/-- The ops of the diff: every column that is added and not renamed to is there. -/
theorem changed_ops_leads :
    ∃ t₁, Leads fill (some (prev.content data))
        ((((diff target snapshot).ops.filter fun op => op.on = table).map MigOp.shape).filter fun op =>
          !(op.added? table).any (renamedTo table as)) (some t₁) ∧
      (∀ c ∈ t.columns, prev.column c.name = none → renamedTo table as c.name = false →
        t₁ c.name = some (c.kind, fill)) ∧
      ∀ n, (prev.column n = none → ∀ c ∈ t.columns, c.name = n → renamedTo table as n = true) →
        t₁ n = prev.content data n := by
  obtain ⟨hmem, hname⟩ := Schema.mem_of_table hfound
  have hnodup := (ht.columns t hmem).sublist
    ((List.filter_sublist (p := fun c => (prev.column c.name).isNone)).map SchemaColumn.name)
  obtain ⟨t₁, hrun, hadded, hkept⟩ := leads_adds (t := prev.content data) fill table
    (renamedTo table as) hnodup
    (fun c hc => by
      have hnone := Option.isNone_iff_eq_none.1 (List.mem_filter.1 hc).2
      rw [SchemaTable.content, hnone]
      rfl)
    (fun c hc hgone => by
      obtain ⟨hc, hnone⟩ := List.mem_filter.1 hc
      by_contra hunique
      exact hindexes c.name hgone _ (changed_uniqueIndex ht hs hfound hold hc
        (Option.isNone_iff_eq_none.1 hnone) (by simpa using hunique)) (.head _))
  refine ⟨t₁, ?_, ?_, ?_⟩
  · rw [changed_ops_on ht hs hfound hold, List.map_append, List.map_append, List.filter_append,
      List.filter_append]
    refine leads_append.2 ⟨_, leads_append.2 ⟨_, hrun, leads_of_apply_self fun op hop => ?_⟩,
      leads_of_apply_self fun op hop => ?_⟩
    · obtain ⟨_, hdrop, rfl⟩ := List.mem_map.1 (List.mem_of_mem_filter hop)
      obtain ⟨pi, _, rfl⟩ := List.mem_map.1 hdrop
      rfl
    · obtain ⟨_, hadd, rfl⟩ := List.mem_map.1 (List.mem_of_mem_filter hop)
      obtain ⟨ix, hix, rfl⟩ := List.mem_map.1 hadd
      refine if_pos fun n hn => ?_
      obtain ⟨c, hc, rfl⟩ := ht.indexed t hmem ix (List.mem_of_mem_filter hix) n hn
      cases hprev : prev.column c.name with
      | none =>
          have hgone : renamedTo table as c.name = false := by
            rw [← Bool.not_eq_true]
            exact fun hgone => hindexes c.name hgone ix (changed_index ht hs hfound hold hix) hn
          rw [hadded c (List.mem_filter.2 ⟨hc, by simp [hprev]⟩) hgone]
          simp
      | some pc =>
          obtain ⟨hpc, hpcname⟩ := SchemaTable.mem_of_column hprev
          rw [hkept c.name fun e he heq => by
            have hnone := (List.mem_filter.1 he).2
            rw [heq, hprev] at hnone
            cases hnone]
          rw [← hpcname]
          exact SchemaTable.content_ne_none hpc
  · exact fun c hc hnew hgone => hadded c (List.mem_filter.2 ⟨hc, by simp [hnew]⟩) hgone
  · refine fun n hn => hkept n fun c hc heq => ?_
    obtain ⟨hc, hnone⟩ := List.mem_filter.1 hc
    exact hn (heq ▸ Option.isNone_iff_eq_none.1 hnone) c hc heq

/-- The drops that are left. -/
def remaining (prev t : SchemaTable) (table : String) (as : List Answer) : List SchemaColumn :=
  (droppedColumns prev t).filter fun pc => (table, pc.name) ∉ as.filterMap Answer.drop?

theorem takes_drop {n : String} : (as.all fun a => !a.takes (.dropColumn table n)) =
    decide ((table, n) ∉ as.filterMap Answer.drop?) := by
  rw [Bool.eq_iff_iff, List.all_eq_true, decide_eq_true_iff, List.mem_filterMap]
  constructor
  · rintro hall ⟨a, ha, hdrop⟩
    simpa [Answer.takes, hdrop, MigOp.drops] using hall a ha
  · intro hnone a ha
    simp only [Answer.takes, Bool.not_eq_true', Option.any_eq_false]
    intro q hq
    refine decide_eq_false fun heq => hnone ⟨a, ha, ?_⟩
    obtain ⟨rfl, rfl⟩ := MigOp.dropColumn.inj heq
    exact hq

include ht hs hfound hold h in
theorem resolved_destructive_on : d.destructive.filter (fun op => op.on = table) =
    ((retypedColumns prev t).map fun c => .alterColumnType table c.name c.kind) ++
      (remaining prev t table as).map fun pc => .dropColumn table pc.name := by
  have hcomm : d.destructive.filter (fun op => op.on = table) =
      ((diff target snapshot).destructive.filter fun op => op.on = table).filter fun op =>
        as.all fun a => !a.takes op := by
    rw [h.destructive, List.filter_filter, List.filter_filter]
    exact List.filter_congr fun op _ => Bool.and_comm ..
  rw [hcomm, changed_destructive_on ht hs hfound hold, List.filter_append, List.filter_map]
  congr 1
  · congr 1
    refine List.filter_eq_self.2 fun c _ => List.all_eq_true.2 fun a _ => ?_
    cases a <;> rfl
  · rw [List.filter_map, remaining]
    congr 1
    exact List.filter_congr fun pc _ => takes_drop

theorem dropOps_leaves (l : List SchemaColumn) :
    (l.map fun pc => MigOp.dropColumn table pc.name).filterMap MigOp.leaves? =
      l.map SchemaColumn.name := by
  rw [List.filterMap_map, ← List.filterMap_eq_map]
  rfl

theorem dropOps_makes (l : List SchemaColumn) :
    (l.map fun pc => MigOp.dropColumn table pc.name).filterMap MigOp.makes? = [] := by
  rw [List.filterMap_map]
  exact List.filterMap_eq_nil_iff.2 fun _ _ => rfl

include hs hold in
theorem remaining_movable (as : List Answer) (t : SchemaTable) {t₃ : TableData D}
    (hpresent : ∀ pc ∈ remaining prev t table as, t₃ pc.name ≠ none) :
    Movable t₃ ((remaining prev t table as).map fun pc => .dropColumn table pc.name) := by
  constructor
  · intro op hop
    obtain ⟨pc, _, rfl⟩ := List.mem_map.1 hop
    rfl
  · rw [dropOps_leaves]
    have hnodup := hs.columns prev (Schema.mem_of_table hold).1
    exact hnodup.sublist ((List.filter_sublist.trans List.filter_sublist).map _)
  · rw [dropOps_leaves]
    intro n hn
    obtain ⟨pc, hpc, rfl⟩ := List.mem_map.1 hn
    exact hpresent pc hpc
  · rw [dropOps_makes]
    exact List.nodup_nil
  · rw [dropOps_makes]
    simp

theorem mem_remaining_name {n : String}
    (hn : n ∈ (remaining prev t table as).map SchemaColumn.name) : t.column n = none := by
  obtain ⟨pc, hpc, rfl⟩ := List.mem_map.1 hn
  exact Option.isNone_iff_eq_none.1 (List.mem_filter.1 (List.mem_of_mem_filter hpc)).2

variable (fill data) in
include ht hs hfound hold h hindexes in
/-- The ops of a table apply: each column that is not renamed to has the target's kind, and the
others are the columns that were renamed. -/
theorem changed_leads :
    ∃ t', Leads fill (some (prev.content data)) ((d.ops ++ d.destructive).filter fun op => op.on = table)
        (some t') ∧
      (∀ n, renamedTo table as n = false → (t' n).map Prod.fst = (t.column n).map SchemaColumn.kind) ∧
      ∀ source n, .rename table source n ∈ as → t' n = prev.content data source := by
  obtain ⟨hmem, -⟩ := Schema.mem_of_table hfound
  have hnodup := ht.columns t hmem
  obtain ⟨t₁, hrun₁, hadded, hkept₁⟩ := changed_ops_leads fill data ht hs hfound
    hold hindexes
  have hdrop : ∀ n, n ∈ (movesOn table as).filterMap MigOp.leaves? →
      (∃ pc ∈ prev.columns, pc.name = n) ∧ t.column n = none := by
    intro n hn
    rw [movesOn_leaves, mem_columnsOn] at hn
    exact drop_old ht hs hfound hold h hn
  have hmake : ∀ n, n ∈ (movesOn table as).filterMap MigOp.makes? → renamedTo table as n = true := by
    intro n hn
    rw [movesOn_makes] at hn
    exact List.contains_iff_mem.2 hn
  have hnew : ∀ n, renamedTo table as n = true →
      (∃ c ∈ t.columns, c.name = n) ∧ prev.column n = none :=
    fun n hn => target_new ht hs hfound hold h hn
  have hold₁ : ∀ pc ∈ prev.columns, t₁ pc.name = prev.content data pc.name := fun pc hpc =>
    hkept₁ pc.name fun hnone => absurd rfl (SchemaTable.column_eq_none hnone pc hpc)
  have hmovable : Movable t₁ (movesOn table as) := by
    refine ⟨fun op hop => movesOn_moves hop, ?_, ?_, ?_, ?_⟩
    · rw [movesOn_leaves]
      exact columnsOn_nodup h.drops
    · intro n hn
      obtain ⟨⟨pc, hpc, rfl⟩, -⟩ := hdrop n hn
      rw [hold₁ pc hpc]
      exact SchemaTable.content_ne_none hpc
    · rw [movesOn_makes]
      exact columnsOn_nodup h.targets
    · intro n hn
      rw [hkept₁ n fun _ c _ _ => hmake n hn, SchemaTable.content, (hnew n (hmake n hn)).2]
      rfl
  obtain ⟨t₂, hrun₂, hmoved⟩ := leads_moves fill hmovable
  -- A column of both tables is not moved.
  have hboth : ∀ c ∈ t.columns, ∀ pc ∈ prev.columns, pc.name = c.name →
      t₂ c.name = prev.content data c.name := by
    intro c hc pc hpc heq
    rw [hmoved.kept c.name ?_ ?_, ← heq]
    · exact hold₁ pc hpc
    · intro hn
      exact SchemaTable.column_eq_none (hdrop _ hn).2 c hc rfl
    · intro hn
      exact SchemaTable.column_eq_none (hnew _ (hmake _ hn)).2 pc hpc heq
  have hretyped : ∀ c ∈ retypedColumns prev t, ∃ pc ∈ prev.columns, pc.name = c.name := by
    intro c hc
    obtain ⟨pc, hpc, -⟩ := (Option.any_eq_true _ _).1 (List.mem_filter.1 hc).2
    exact ⟨pc, SchemaTable.mem_of_column hpc⟩
  obtain ⟨t₃, hrun₃, hkinds, hkept₃⟩ := leads_retypes (t := t₂) fill table
    (l := retypedColumns prev t) (hnodup.sublist (List.filter_sublist.map _)) (by
      intro c hc
      obtain ⟨pc, hpc, heq⟩ := hretyped c hc
      rw [hboth c (List.mem_of_mem_filter hc) pc hpc heq, ← heq]
      exact SchemaTable.content_ne_none hpc)
  have hstays : ∀ n, (∀ c ∈ t.columns, c.name = n → prev.column n = none) → t₃ n = t₂ n := by
    intro n hn
    refine hkept₃ n fun hmem => ?_
    obtain ⟨c, hc, rfl⟩ := List.mem_map.1 hmem
    obtain ⟨pc, hpc, heq⟩ := hretyped c hc
    exact SchemaTable.column_eq_none (hn c (List.mem_of_mem_filter hc) rfl) pc hpc heq
  have hpresent : ∀ pc ∈ remaining prev t table as, t₃ pc.name ≠ none := by
    intro pc hpc
    obtain ⟨hdropped, hanswered⟩ := List.mem_filter.1 hpc
    obtain ⟨hpc, hnone⟩ := List.mem_filter.1 hdropped
    have hnone := Option.isNone_iff_eq_none.1 hnone
    have hanswered := of_decide_eq_true hanswered
    rw [hstays pc.name fun c hc heq => absurd heq (SchemaTable.column_eq_none hnone c hc),
      hmoved.kept pc.name ?_ ?_, hold₁ pc hpc]
    · exact SchemaTable.content_ne_none hpc
    · rwa [movesOn_leaves, mem_columnsOn]
    · intro hn
      obtain ⟨c, hc, heq⟩ := (hnew _ (hmake _ hn)).1
      exact SchemaTable.column_eq_none hnone c hc heq
  have hremaining := remaining_movable hs hold as t hpresent
  obtain ⟨t₄, hrun₄, hleft, -, hother₄⟩ := leads_moves fill hremaining
  rw [dropOps_leaves] at hleft hother₄
  rw [dropOps_makes] at hother₄
  have hkept₄ : ∀ c ∈ t.columns, t₄ c.name = t₃ c.name := by
    intro c hc
    refine hother₄ c.name (fun hn => ?_) List.not_mem_nil
    exact SchemaTable.column_eq_none (mem_remaining_name hn) c hc rfl
  refine ⟨t₄, ?_, fun n hn => ?_, fun source n ha => ?_⟩
  · rw [List.filter_append, resolved_destructive_on ht hs hfound hold h]
    refine leads_append.2 ⟨_, leads_shape.1 ?_, leads_append.2 ⟨_, hrun₃, hrun₄⟩⟩
    rw [h.ops_on]
    exact leads_append.2 ⟨_, hrun₁, hrun₂⟩
  · cases hcolumn : t.column n with
    | some c =>
        obtain ⟨hc, rfl⟩ := SchemaTable.mem_of_column hcolumn
        rw [hkept₄ c hc]
        cases hprev : prev.column c.name with
        | some pc =>
            obtain ⟨hpc, heq⟩ := SchemaTable.mem_of_column hprev
            have hcontent : t₂ c.name = some (pc.kind, data c.name) := by
              rw [hboth c hc pc hpc heq, SchemaTable.content, hprev]
              rfl
            by_cases hkind : pc.kind = c.kind
            · have hstay : t₃ c.name = t₂ c.name := by
                refine hkept₃ c.name fun hn => ?_
                obtain ⟨e, he, hename⟩ := List.mem_map.1 hn
                obtain ⟨het, hany⟩ := List.mem_filter.1 he
                obtain rfl := List.inj_on_of_nodup_map hnodup het hc hename
                simp [hprev, hkind] at hany
              rw [hstay, hcontent, Option.map_some, Option.map_some, hkind]
            · have hc' : c ∈ retypedColumns prev t :=
                List.mem_filter.2 ⟨hc, by simp [hprev, hkind]⟩
              rw [hkinds c hc', hcontent]
              rfl
        | none =>
            rw [hstays c.name fun _ _ _ => hprev, hmoved.kept c.name ?_ ?_, hadded c hc hprev hn]
            · rfl
            · intro hmem
              exact SchemaTable.column_eq_none (hdrop _ hmem).2 c hc rfl
            · intro hmem
              simp [hmake _ hmem] at hn
    | none =>
        have hnone := SchemaTable.column_eq_none hcolumn
        have hgone : t₄ n = none := by
          by_cases hmem : n ∈ (remaining prev t table as).map SchemaColumn.name
          · exact hleft n hmem
          · rw [hother₄ n hmem List.not_mem_nil,
              hstays n fun c hc heq => absurd heq (hnone c hc)]
            by_cases hanswered : n ∈ (movesOn table as).filterMap MigOp.leaves?
            · exact hmoved.left n hanswered
            · rw [hmoved.kept n hanswered fun hmake' => by simp [hmake _ hmake'] at hn,
                hkept₁ n fun _ c hc heq => absurd heq (hnone c hc), SchemaTable.content]
              refine Option.map_eq_none_iff.2 ?_
              by_contra hprev
              obtain ⟨pc, hfind⟩ := Option.ne_none_iff_exists'.1 hprev
              obtain ⟨hpc, rfl⟩ := SchemaTable.mem_of_column hfind
              rw [movesOn_leaves, mem_columnsOn] at hanswered
              exact hmem (List.mem_map_of_mem (List.mem_filter.2
                ⟨List.mem_filter.2 ⟨hpc, by simp [hcolumn]⟩, decide_eq_true hanswered⟩))
        rw [hgone]
        rfl
  · have hrenamed : renamedTo table as n = true := renamedTo_iff.2 ⟨source, ha⟩
    obtain ⟨⟨c, hc, rfl⟩, hprev⟩ := hnew n hrenamed
    rw [hkept₄ c hc, hstays c.name fun _ _ _ => hprev,
      hmoved.made table source c.name (mem_movesOn.2 ha)]
    have hsource : source ∈ (movesOn table as).filterMap MigOp.leaves? :=
      List.mem_filterMap.2 ⟨_, mem_movesOn.2 ha, rfl⟩
    obtain ⟨⟨pc, hpc, rfl⟩, -⟩ := hdrop source hsource
    exact hold₁ pc hpc

end

/-! ## The other tables -/

section

variable {D : Type*} {fill : D} (ht : target.WellFormed) (hs : snapshot.WellFormed)
  (h : Resolved (diff target snapshot) as d)

include ht hs h in
/-- Answers are about tables of both schemas. -/
theorem answered_changed {n : String} (hn : (table, n) ∈ as.filterMap Answer.drop?) :
    ∃ t prev, target.table table = some t ∧ snapshot.table table = some prev := by
  have hmem : MigOp.dropColumn table n ∈
      (diff target snapshot).destructive.filter fun op => op.on = table :=
    List.mem_filter.2 ⟨h.quarantined _ hn, by simp [MigOp.on]⟩
  rw [diff_destructive_on ht hs] at hmem
  cases hfound : target.table table with
  | none =>
      rw [hfound] at hmem
      simp only at hmem
      split at hmem
      · cases List.mem_singleton.1 hmem
      · cases hmem
  | some t =>
      obtain ⟨-, rfl⟩ := Schema.mem_of_table hfound
      cases hold : snapshot.table t.name with
      | none =>
          rw [hfound] at hmem
          simp only [diffTable, hold, newTable] at hmem
          cases hmem
      | some prev => exact ⟨t, prev, rfl, rfl⟩

theorem drop_of_rename {source n : String} (ha : .rename table source n ∈ as) :
    (table, source) ∈ as.filterMap Answer.drop? :=
  List.mem_filterMap.2 ⟨_, ha, rfl⟩

include h in
/-- The ops of a table that no answer is about are those of the diff. -/
theorem unanswered_leads {s s' : Option (TableData D)}
    (hnone : ∀ n, (table, n) ∉ as.filterMap Answer.drop?) :
    Leads fill s ((d.ops ++ d.destructive).filter fun op => op.on = table) s' ↔
      Leads fill s (((diff target snapshot).ops.filter fun op => op.on = table) ++
        (diff target snapshot).destructive.filter fun op => op.on = table) s' := by
  have hmoves : movesOn table as = [] := by
    refine List.eq_nil_iff_forall_not_mem.2 fun op hop => ?_
    obtain ⟨n, hn⟩ := Option.isSome_iff_exists.1 (movesOn_moves hop)
    refine hnone n (mem_columnsOn.1 ?_)
    rw [← movesOn_leaves]
    exact List.mem_filterMap.2 ⟨op, hop, hn⟩
  have hrenamed : ∀ n, renamedTo table as n = false := by
    intro n
    rw [← Bool.not_eq_true, renamedTo_iff]
    rintro ⟨source, ha⟩
    exact hnone source (drop_of_rename ha)
  have hall : ∀ ops : List MigOp,
      ops.filter (fun op => !(op.added? table).any (renamedTo table as)) = ops := by
    refine fun ops => List.filter_eq_self.2 fun op _ => ?_
    cases op.added? table <;> simp [hrenamed]
  have hops := h.ops_on table
  rw [hmoves, List.append_nil, hall] at hops
  have hdestructive : d.destructive.filter (fun op => op.on = table) =
      (diff target snapshot).destructive.filter fun op => op.on = table := by
    rw [h.destructive, List.filter_filter]
    refine List.filter_congr fun op _ => ?_
    by_cases hon : op.on = table
    · refine (Bool.and_eq_left_iff_imp.2 fun _ => List.all_eq_true.2 fun a ha => ?_)
      simp only [Answer.takes, Bool.not_eq_true', Option.any_eq_false]
      intro q hq
      refine decide_eq_false fun heq => ?_
      subst heq
      obtain rfl : q.1 = table := hon
      exact hnone q.2 (List.mem_filterMap.2 ⟨a, ha, hq⟩)
    · simp [hon]
  have hfirst : ∀ s', Leads fill s (d.ops.filter fun op => op.on = table) s' ↔
      Leads fill s ((diff target snapshot).ops.filter fun op => op.on = table) s' := by
    intro s'
    rw [← leads_shape, hops, leads_shape]
  rw [List.filter_append, hdestructive, leads_append, leads_append]
  exact exists_congr fun s' => and_congr_left fun _ => hfirst s'

end

/-! ## The whole migration -/

/-- The kind of a column. -/
def Schema.kindOf (s : Schema) (table column : String) : Option String :=
  (s.kinds table).bind fun kinds => kinds column

/-- An op that makes no column of the name. -/
def MigOp.spares (column : String) : MigOp → Prop
  | .addColumn _ c _ _ _ _ => c ≠ column
  | .addIndex _ _ | .dropIndex _ _ => True
  | _ => False

/-- An index on a column that no op before it makes. -/
theorem not_leads_index {D : Type*} {fill : D} {tab : TableData D} {ops : List MigOp} {n : String}
    (ix : SchemaIndex) (table : String) {s' : Option (TableData D)} (hops : ∀ op ∈ ops, op.spares n)
    (hix : .addIndex table ix ∈ ops) (hn : n ∈ ix.columns) (habsent : tab n = none) :
    ¬Leads fill (some tab) ops s' := by
  induction ops generalizing tab with
  | nil => cases hix
  | cons op ops ih =>
      intro hrun
      obtain ⟨s₁, happly, hrun⟩ := leads_cons.1 hrun
      have hspares := hops op (.head _)
      have hrest : ∀ {tab₁ : TableData D}, s₁ = some tab₁ → tab₁ n = none →
          .addIndex table ix ∈ ops → False := by
        rintro tab₁ rfl habsent₁ hix
        exact ih (fun op hop => hops op (.tail _ hop)) hix habsent₁ hrun
      cases op with
      | addColumn t' c type nullable unique default =>
          simp only [TableData.apply, Option.ite_none_right_eq_some, Option.some.injEq] at happly
          refine hrest happly.2.symm ?_ ((List.mem_cons.1 hix).resolve_left (by simp))
          rw [Function.update_of_ne (Ne.symm hspares)]
          exact habsent
      | addIndex t' ix' =>
          simp only [TableData.apply, Option.ite_none_right_eq_some, Option.some.injEq] at happly
          rcases List.mem_cons.1 hix with heq | hix
          · obtain ⟨rfl, rfl⟩ := MigOp.addIndex.inj heq
            exact happly.1 n hn habsent
          · exact hrest happly.2.symm habsent hix
      | dropIndex t' name =>
          exact hrest (Option.some.inj happly).symm habsent
            ((List.mem_cons.1 hix).resolve_left (by simp))
      | _ => exact hspares.elim

section

variable {D : Type*} {fill : D} {data : String → String → D} (ht : target.WellFormed)
  (hs : snapshot.WellFormed) (h : Resolved (diff target snapshot) as d)

theorem Content.ofSchema_some (hold : snapshot.table table = some prev) :
    Content.ofSchema snapshot data table = some (prev.content (data table)) := by
  rw [Content.ofSchema, hold]
  rfl

theorem Schema.kindOf_some (hfound : target.table table = some t) (n : String) :
    target.kindOf table n = (t.column n).map SchemaColumn.kind := by
  rw [Schema.kindOf, Schema.kinds, hfound]
  rfl

include ht in
theorem newTable_leads (hmem : t ∈ target.tables) :
    Leads fill none (newTable t).ops (some fun n => (t.column n).map fun c => (c.kind, fill)) := by
  have hcolumns : (fun n => ((t.columns.map (·.created t.pk)).find? fun c => c.name = n).map
      fun c => (c.type, fill)) = fun n => (t.column n).map fun c => (c.kind, fill) := by
    funext n
    rw [List.find?_map, Option.map_map]
    rfl
  have hcreate : TableData.apply fill none (.createTable t.name (t.columns.map (·.created t.pk))) =
      some (some fun n => (t.column n).map fun c => (c.kind, fill)) := by
    rw [← hcolumns]
    refine if_pos ?_
    rw [List.map_map]
    exact ht.columns t hmem
  simp only [newTable, ht.own_eq hmem]
  refine leads_cons.2 ⟨_, hcreate, leads_of_apply_self fun op hop => ?_⟩
  obtain ⟨ix, hix, rfl⟩ := List.mem_map.1 hop
  refine if_pos fun n hn hnone => ?_
  obtain ⟨c, hc, rfl⟩ := ht.indexed t hmem ix hix n hn
  exact SchemaTable.column_eq_none (Option.map_eq_none_iff.1 hnone) c hc rfl

variable (fill data) in
include ht hs h in
/-- The ops of each table apply, if no index is on a column that is renamed to. -/
theorem table_leads (hindexes : ∀ table, Unindexed target snapshot table as) (table : String) :
    ∃ x, Leads fill (Content.ofSchema snapshot data table)
        ((d.ops ++ d.destructive).filter fun op => op.on = table) x ∧
      x.isSome = (target.table table).isSome ∧
      (∀ n, renamedTo table as n = false →
        (x.bind fun t => t n).map Prod.fst = target.kindOf table n) ∧
      ∀ source n, .rename table source n ∈ as →
        (x.bind fun t => t n) = (Content.ofSchema snapshot data table).bind fun t => t source := by
  by_cases hboth : ∃ t prev, target.table table = some t ∧ snapshot.table table = some prev
  · obtain ⟨t, prev, hfound, hold⟩ := hboth
    obtain ⟨t', hrun, hkinds, hrenames⟩ := changed_leads fill (data table) ht hs
      hfound hold h (hindexes table)
    rw [Content.ofSchema_some hold, hfound]
    refine ⟨some t', hrun, rfl, fun n hn => ?_, fun source n ha => hrenames source n ha⟩
    rw [Schema.kindOf_some hfound]
    exact hkinds n hn
  · have hnone : ∀ n, (table, n) ∉ as.filterMap Answer.drop? :=
      fun n hn => hboth (answered_changed ht hs h hn)
    have hrename : ∀ source n, .rename table source n ∉ as :=
      fun source n ha => hnone source (drop_of_rename ha)
    simp only [unanswered_leads h hnone, diff_ops_on ht hs, diff_destructive_on ht hs]
    cases hfound : target.table table with
    | none =>
        have hkind : ∀ n, target.kindOf table n = none := by
          intro n
          rw [Schema.kindOf, Schema.kinds, hfound]
          rfl
        refine ⟨none, ?_, rfl, fun n _ => (hkind n).symm, fun source n ha => absurd ha (hrename source n)⟩
        cases hold : snapshot.table table with
        | none =>
            rw [Content.ofSchema, hold]
            exact .nil _
        | some prev =>
            rw [Content.ofSchema_some hold]
            exact leads_cons.2 ⟨_, rfl, .nil _⟩
    | some t =>
        have hold : snapshot.table table = none := by
          by_contra hold
          obtain ⟨prev, hold⟩ := Option.ne_none_iff_exists'.1 hold
          exact hboth ⟨t, prev, hfound, hold⟩
        obtain ⟨hmem, rfl⟩ := Schema.mem_of_table hfound
        refine ⟨some fun n => (t.column n).map fun c => (c.kind, fill), ?_, rfl, fun n _ => ?_,
          fun source n ha => absurd ha (hrename source n)⟩
        · simp only [Option.map_some, Option.getD_some, diffTable, hold, Content.ofSchema,
            Option.map_none]
          exact leads_append.2 ⟨_, newTable_leads ht hmem, .nil _⟩
        · rw [Schema.kindOf_some hfound, Option.bind_some, Option.map_map]
          rfl

include ht hs h in
/-- An index on a column that is renamed to comes before the column. -/
theorem unindexed_of_leads {s' : Option (TableData D)}
    (hrun : Leads fill (Content.ofSchema snapshot data table)
      ((d.ops ++ d.destructive).filter fun op => op.on = table) s') :
    Unindexed target snapshot table as := by
  intro n hn ix hix hcolumn
  obtain ⟨source, ha⟩ := renamedTo_iff.1 hn
  obtain ⟨t, prev, hfound, hold⟩ := answered_changed ht hs h (drop_of_rename ha)
  have hnew := (target_new ht hs hfound hold h hn).2
  rw [List.filter_append] at hrun
  obtain ⟨s₁, hfirst, -⟩ := leads_append.1 hrun
  rw [← leads_shape, h.ops_on] at hfirst
  obtain ⟨s₀, hfirst, -⟩ := leads_append.1 hfirst
  rw [Content.ofSchema_some hold] at hfirst
  refine not_leads_index (n := n) ix table ?_ ?_ hcolumn ?_ hfirst
  · intro op hop
    obtain ⟨hop, hkept⟩ := List.mem_filter.1 hop
    obtain ⟨op, hold', rfl⟩ := List.mem_map.1 hop
    rw [changed_ops_on ht hs hfound hold] at hold'
    rcases List.mem_append.1 hold' with hmem | hmem
    · rcases List.mem_append.1 hmem with hmem | hmem
      · obtain ⟨c, -, hmem⟩ := List.mem_flatMap.1 hmem
        rcases List.mem_cons.1 hmem with rfl | hmem
        · rintro rfl
          simp [MigOp.shape, MigOp.added?, hn] at hkept
        · split at hmem
          · obtain rfl := List.mem_singleton.1 hmem
            trivial
          · cases hmem
      · obtain ⟨pi, -, rfl⟩ := List.mem_map.1 hmem
        trivial
    · obtain ⟨ix, -, rfl⟩ := List.mem_map.1 hmem
      trivial
  · have hon : .addIndex table ix ∈ (diff target snapshot).ops.filter fun op => op.on = table :=
      List.mem_filter.2 ⟨hix, by simp [MigOp.on]⟩
    exact List.mem_filter.2 ⟨List.mem_map.2 ⟨_, hon, rfl⟩, rfl⟩
  · rw [SchemaTable.content, hnew]
    rfl

end

/-- The answered ops apply and lead to the target exactly when each renamed column has the kind of the
column that it becomes, and no index that the diff adds is on that column. -/
theorem answers_migrate_iff {D : Type*} (ht : target.WellFormed) (hs : snapshot.WellFormed)
    (hrun : Run Answered (diff target snapshot) as d) (fill : D) (data : String → String → D) :
    d.Migrates fill target as (Content.ofSchema snapshot data) ↔
      ∀ table source column, .rename table source column ∈ as →
        snapshot.kindOf table source = target.kindOf table column ∧
          ∀ ix, .addIndex table ix ∈ (diff target snapshot).ops → column ∉ ix.columns := by
  have h := resolved_of_run hrun
  constructor
  · rintro ⟨c', hops, hkinds, -⟩ table source column ha
    have hindexes : ∀ table, Unindexed target snapshot table as :=
      fun table => unindexed_of_leads ht hs h (keyed_run hops table)
    have hrenamed : renamedTo table as column = true := renamedTo_iff.2 ⟨source, ha⟩
    refine ⟨?_, hindexes table column hrenamed⟩
    obtain ⟨t, prev, hfound, hold⟩ := answered_changed ht hs h (drop_of_rename ha)
    obtain ⟨x, hleads, -, -, hdata⟩ := table_leads fill data ht hs h hindexes table
    obtain rfl : x = c' table := Leads.unique hleads (keyed_run hops table)
    have hkind : (c'.kinds table).bind (fun kinds => kinds column) = target.kindOf table column := by
      rw [hkinds]
      rfl
    rw [← hkind, Content.kinds, Option.bind_map, Schema.kindOf_some hold]
    have hcolumn := congrArg (Option.map Prod.fst) (hdata source column ha)
    rw [Content.ofSchema_some hold, Option.map_bind] at hcolumn
    refine Eq.trans ?_ hcolumn.symm
    rw [Option.bind_some, SchemaTable.content, Option.map_map]
    rfl
  · intro hclean
    have hindexes : ∀ table, Unindexed target snapshot table as := by
      intro table n hn
      obtain ⟨source, ha⟩ := renamedTo_iff.1 hn
      exact (hclean table source n ha).2
    choose c' hleads hsome hkinds hdata using
      table_leads fill data ht hs h hindexes
    refine ⟨c', keyed_of_parts hleads, ?_, fun table source column ha => ?_⟩
    · funext table
      have hcolumn : ∀ n, ((c' table).bind fun t => t n).map Prod.fst = target.kindOf table n := by
        intro n
        cases hn : renamedTo table as n with
        | false => exact hkinds table n hn
        | true =>
            obtain ⟨source, ha⟩ := renamedTo_iff.1 hn
            obtain ⟨t, prev, hfound, hold⟩ := answered_changed ht hs h (drop_of_rename ha)
            rw [hdata table source n ha, ← (hclean table source n ha).1, Content.ofSchema_some hold,
              Schema.kindOf_some hold, Option.bind_some, SchemaTable.content, Option.map_map]
            rfl
      have hsome' := hsome table
      simp only [Schema.kindOf, Schema.kinds] at hcolumn
      rw [Content.kinds, Schema.kinds]
      cases htab : c' table with
      | none =>
          cases hfound : target.table table with
          | none => rfl
          | some t => simp [htab, hfound] at hsome'
      | some tab =>
          cases hfound : target.table table with
          | none => simp [htab, hfound] at hsome'
          | some t =>
              simp only [htab, hfound, Option.bind_some, Option.map_some] at hcolumn
              exact congrArg some (funext hcolumn)
    · exact congrArg (Option.map Prod.snd) (hdata table source column ha)

/-! ## An example -/

def users (column kind : String) (indexes : List SchemaIndex) : SchemaTable where
  name := "users"
  pk := "id"
  columns := [{ name := "id", kind := "int" }, { name := column, kind := kind }]
  indexes := indexes

def renamed (kind : String) (indexes : List SchemaIndex) : Diff :=
  (diff ⟨[users "handle" kind indexes]⟩ ⟨[users "slug" "text" []]⟩).rename "users" "slug" "handle"

theorem answers_migrate_users :
    Run Answered (diff ⟨[users "handle" "text" []]⟩ ⟨[users "slug" "text" []]⟩)
        [.rename "users" "slug" "handle"] (renamed "text" []) ∧
      (renamed "text" []).Migrates 0 ⟨[users "handle" "text" []]⟩ [.rename "users" "slug" "handle"]
        (Content.ofSchema ⟨[users "slug" "text" []]⟩ fun _ _ => 1) := by
  have hrun : Run Answered (diff ⟨[users "handle" "text" []]⟩ ⟨[users "slug" "text" []]⟩)
      [.rename "users" "slug" "handle"] (renamed "text" []) :=
    .single ⟨⟨⟨"users", "slug", ["handle"]⟩, by decide, rfl, rfl, by decide⟩, rfl⟩
  refine ⟨hrun, (answers_migrate_iff ⟨by decide, by decide, by decide, by decide, by decide⟩
    ⟨by decide, by decide, by decide, by decide, by decide⟩ hrun 0 fun _ _ => 1).2 ?_⟩
  intro table source column ha
  obtain ⟨rfl, rfl, rfl⟩ := Answer.rename.inj (List.mem_singleton.1 ha)
  refine ⟨by decide, fun ix hix => ?_⟩
  have hnone : (diff ⟨[users "handle" "text" []]⟩ ⟨[users "slug" "text" []]⟩).ops =
      [.addColumn "users" "handle" "text" false false (some (.text ""))] := by decide
  rw [hnone] at hix
  cases List.mem_singleton.1 hix

/-- The only candidate has another kind, and the column keeps the kind it had. An index on the renamed
column is added before the rename. -/
theorem rename_misleads :
    (Run Answered (diff ⟨[users "handle" "int" []]⟩ ⟨[users "slug" "text" []]⟩)
        [.rename "users" "slug" "handle"] (renamed "int" []) ∧
      ¬(renamed "int" []).Migrates 0 ⟨[users "handle" "int" []]⟩ [.rename "users" "slug" "handle"]
        (Content.ofSchema ⟨[users "slug" "text" []]⟩ fun _ _ => 1)) ∧
    (Run Answered (diff ⟨[users "handle" "text" [⟨"ix", ["handle"], false, ""⟩]]⟩
          ⟨[users "slug" "text" []]⟩)
        [.rename "users" "slug" "handle"] (renamed "text" [⟨"ix", ["handle"], false, ""⟩]) ∧
      ((renamed "text" [⟨"ix", ["handle"], false, ""⟩]).ops.foldlM (Content.apply 0)
        (Content.ofSchema ⟨[users "slug" "text" []]⟩ fun _ _ => 1)).isNone = true) := by
  refine ⟨⟨.single ⟨⟨⟨"users", "slug", ["handle"]⟩, by decide, rfl, rfl, by decide⟩, rfl⟩, ?_⟩,
    .single ⟨⟨⟨"users", "slug", ["handle"]⟩, by decide, rfl, rfl, by decide⟩, rfl⟩, by decide +kernel⟩
  rintro ⟨c', hops, hkinds, -⟩
  have hkind : (((renamed "int" []).ops ++ (renamed "int" []).destructive).foldlM (Content.apply 0)
      (Content.ofSchema ⟨[users "slug" "text" []]⟩ fun _ _ => 1)).map
        (fun c => (c.kinds "users").bind fun kinds => kinds "handle") = some (some "text") := by
    decide +kernel
  rw [hops, Option.map_some, hkinds] at hkind
  exact absurd hkind (by decide +kernel)

end Sky.Migrate
