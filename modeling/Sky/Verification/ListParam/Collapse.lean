import Sky.Model.ListParam

/-! # Regrouping the arguments

The loop takes one argument for a plain placeholder and a mark's number of them for a list one. It
goes wrong only where an argument's index and a mark's number pass the range of an int. -/

namespace Sky.ListParam

variable {α : Type}

/-- `out` has one argument for each placeholder from `p` on: a plain one has its own, and a list
placeholder the one that is built from its group. -/
inductive Regroups (marks : Marks) (build : ListMark → List α → Option α) :
    ℕ → List α → List α → Prop where
  | nil (p) : Regroups marks build p [] []
  | plain {p x args out} (hp : marks.lookup p = none) (h : Regroups marks build (p + 1) args out) :
      Regroups marks build p (x :: args) (x :: out)
  | list {p m group args v out} (hp : marks.lookup p = some m) (hn : group.length = m.n)
      (hv : build m group = some v) (h : Regroups marks build (p + 1) args out) :
      Regroups marks build p (group ++ args) (v :: out)

/-- The result is the regrouped arguments where every list placeholder has its group, and the
arguments as they were otherwise. -/
structure Collapses (marks : Marks) (args : List α) (build : ListMark → List α → Option α)
    (result : Option (List α)) : Prop where
  regrouped : ∀ out, Regroups marks build 0 args out → (∀ p ∈ marks.keys, p < out.length) →
    result = some out
  unchanged : (∀ out, Regroups marks build 0 args out → ∃ p ∈ marks.keys, out.length ≤ p) →
    result = some args

/-- A list placeholder is reached whose number, with the arguments before its group, is no int. The
arguments are those from placeholder `p` on, out of `len`. -/
inductive Overflows (marks : Marks) (build : ListMark → List α → Option α) (len : ℕ) :
    ℕ → List α → Prop where
  | here {p m args} (hargs : args ≠ []) (hp : marks.lookup p = some m)
      (hlt : 2 ^ 63 ≤ len - args.length + m.n) : Overflows marks build len p args
  | plain {p x args} (hp : marks.lookup p = none) (h : Overflows marks build len (p + 1) args) :
      Overflows marks build len p (x :: args)
  | list {p m group args} (hp : marks.lookup p = some m) (hn : group.length = m.n)
      (hv : build m group ≠ none) (h : Overflows marks build len (p + 1) args) :
      Overflows marks build len p (group ++ args)

/-! ## One placeholder -/

variable {marks : Marks} {build : ListMark → List α → Option α} {args out out' : List α}
  {p : ℕ}

theorem regroups_nil : Regroups marks build p [] out ↔ out = [] := by
  constructor
  · intro h
    generalize hargs : ([] : List α) = args at h
    cases h with
    | nil => rfl
    | plain => cases hargs
    | @list p m group args v out hp hn hv h =>
        have hpos := m.pos
        have hgroup := (List.append_eq_nil_iff.1 hargs.symm).1
        rw [hgroup, List.length_nil] at hn
        omega
  · rintro rfl
    exact .nil p

theorem regroups_plain {x : α} (hp : marks.lookup p = none) :
    Regroups marks build p (x :: args) out ↔
      ∃ rest, out = x :: rest ∧ Regroups marks build (p + 1) args rest := by
  constructor
  · intro h
    generalize hargs : x :: args = all at h
    cases h with
    | nil => cases hargs
    | plain _ h =>
        obtain ⟨rfl, rfl⟩ := List.cons.inj hargs
        exact ⟨_, rfl, h⟩
    | list hp' =>
        rw [hp] at hp'
        cases hp'
  · rintro ⟨rest, rfl, h⟩
    exact .plain hp h

theorem regroups_list {m : ListMark} (hp : marks.lookup p = some m) (hargs : args ≠ []) :
    Regroups marks build p args out ↔ m.n ≤ args.length ∧ ∃ v rest, out = v :: rest ∧
      build m (args.take m.n) = some v ∧ Regroups marks build (p + 1) (args.drop m.n) rest := by
  constructor
  · intro h
    cases h with
    | nil => exact absurd rfl hargs
    | plain hp' =>
        rw [hp] at hp'
        cases hp'
    | list hp' hn hv h =>
        obtain rfl := Option.some.inj (hp.symm.trans hp')
        rw [List.length_append, List.take_left' hn, List.drop_left' hn]
        exact ⟨by omega, _, _, rfl, hv, h⟩
  · rintro ⟨hle, v, rest, rfl, hv, h⟩
    rw [← List.take_append_drop m.n args]
    exact .list hp (List.length_take_of_le hle) hv h

theorem overflows_nil {len : ℕ} : ¬Overflows marks build len p [] := by
  intro h
  generalize hargs : ([] : List α) = args at h
  cases h with
  | here hne => exact hne hargs.symm
  | plain => cases hargs
  | @list p m group args hp hn =>
      have hpos := m.pos
      rw [(List.append_eq_nil_iff.1 hargs.symm).1, List.length_nil] at hn
      omega

theorem overflows_plain {len : ℕ} {x : α} (hp : marks.lookup p = none) :
    Overflows marks build len p (x :: args) ↔ Overflows marks build len (p + 1) args := by
  constructor
  · intro h
    generalize hargs : x :: args = all at h
    cases h with
    | here _ hp' =>
        rw [hp] at hp'
        cases hp'
    | plain _ h =>
        obtain ⟨rfl, rfl⟩ := List.cons.inj hargs
        exact h
    | list hp' =>
        rw [hp] at hp'
        cases hp'
  · exact .plain hp

theorem overflows_list {len : ℕ} {m : ListMark} (hp : marks.lookup p = some m) (hargs : args ≠ []) :
    Overflows marks build len p args ↔ 2 ^ 63 ≤ len - args.length + m.n ∨
      m.n ≤ args.length ∧ build m (args.take m.n) ≠ none ∧
        Overflows marks build len (p + 1) (args.drop m.n) := by
  constructor
  · intro h
    cases h with
    | here _ hp' hlt =>
        obtain rfl := Option.some.inj (hp.symm.trans hp')
        exact .inl hlt
    | plain hp' =>
        rw [hp] at hp'
        cases hp'
    | list hp' hn hv h =>
        obtain rfl := Option.some.inj (hp.symm.trans hp')
        rw [List.length_append, List.take_left' hn, List.drop_left' hn]
        exact .inr ⟨by omega, hv, h⟩
  · rintro (hlt | ⟨hle, hv, h⟩)
    · exact .here hargs hp hlt
    · rw [← List.take_append_drop m.n args]
      exact .list hp (List.length_take_of_le hle) hv h

/-- There is one way to regroup. -/
theorem Regroups.unique (h : Regroups marks build p args out) (h' : Regroups marks build p args out') :
    out = out' := by
  induction h generalizing out' with
  | nil => exact (regroups_nil.1 h').symm
  | plain hp _ ih =>
      obtain ⟨rest, rfl, hrest⟩ := (regroups_plain hp).1 h'
      rw [ih hrest]
  | @list p m group args v out hp hn hv _ ih =>
      have hne : group ++ args ≠ [] := by
        intro hnil
        have hpos := m.pos
        rw [(List.append_eq_nil_iff.1 hnil).1, List.length_nil] at hn
        omega
      obtain ⟨-, v', rest, rfl, hv', hrest⟩ := (regroups_list hp hne).1 h'
      rw [List.take_left' hn, hv] at hv'
      rw [List.drop_left' hn] at hrest
      rw [Option.some.inj hv', ih hrest]

/-! ## The loop -/

theorem toInt64_of_lt {n : ℕ} (h : n < 2 ^ 63) : toInt64 n = n := by
  rw [toInt64, Int.bmod_def]
  norm_num at h ⊢
  omega

theorem toInt64_of_ge {n : ℕ} (h : 2 ^ 63 ≤ n) (hlt : n < 2 ^ 64) : toInt64 n < 0 := by
  rw [toInt64, Int.bmod_def]
  norm_num at h hlt ⊢
  omega

theorem collapseLoop_spec {fuel : ℕ} (before rest : List α) (hargs : args = before ++ rest)
    (hlen : args.length < 2 ^ 63) (hfuel : rest.length ≤ fuel) (p : ℕ) (out : List α) :
    Overflows marks build args.length p rest ∧
        collapseLoop marks args build fuel p before.length out = .panics ∨
      ¬Overflows marks build args.length p rest ∧
        ((∀ new, ¬Regroups marks build p rest new) ∧
            collapseLoop marks args build fuel p before.length out = .unchanged ∨
          ∃ new, Regroups marks build p rest new ∧
            collapseLoop marks args build fuel p before.length out = .collapsed (out ++ new)) := by
  induction fuel generalizing before rest p out with
  | zero =>
      obtain rfl := List.length_eq_zero_iff.1 (Nat.le_zero.1 hfuel)
      exact .inr ⟨overflows_nil, .inr ⟨[], .nil p, by rw [collapseLoop, List.append_nil]⟩⟩
  | succ fuel ih =>
      cases rest with
      | nil =>
          have hnone : args[before.length]? = none := by
            rw [hargs, List.append_nil, List.getElem?_eq_none le_rfl]
          refine .inr ⟨overflows_nil, .inr ⟨[], .nil p, ?_⟩⟩
          rw [collapseLoop, hnone, List.append_nil]
      | cons x rest =>
          have hx : args[before.length]? = some x := by rw [hargs]; simp
          have hlength := congrArg List.length hargs
          rw [List.length_append, List.length_cons] at hlength
          rw [List.length_cons] at hfuel
          cases hp : marks.lookup p with
          | none =>
              have hloop : collapseLoop marks args build (fuel + 1) p before.length out =
                  collapseLoop marks args build fuel (p + 1) (before ++ [x]).length (out ++ [x]) := by
                rw [collapseLoop, hx]
                simp only [hp, List.length_append, List.length_singleton]
              rw [hloop, overflows_plain hp]
              rcases ih (before ++ [x]) rest (by simp [hargs]) (by omega) (p + 1) (out ++ [x])
                with hpanic | ⟨hover, ⟨hnone, hsame⟩ | ⟨new, hnew, hsame⟩⟩
              · exact .inl hpanic
              · refine .inr ⟨hover, .inl ⟨fun new hnew => ?_, hsame⟩⟩
                obtain ⟨new', -, hnew'⟩ := (regroups_plain hp).1 hnew
                exact hnone new' hnew'
              · exact .inr ⟨hover, .inr ⟨x :: new, .plain hp hnew, by rw [hsame]; simp⟩⟩
          | some m =>
              have hm := m.lt
              have hne : x :: rest ≠ [] := List.cons_ne_nil x rest
              have hsub : args.length - (x :: rest).length = before.length := by
                rw [List.length_cons]
                omega
              rw [overflows_list hp hne, hsub]
              by_cases hover : 2 ^ 63 ≤ before.length + m.n
              · have hwrap := toInt64_of_ge hover (by omega)
                push_cast at hwrap
                refine .inl ⟨.inl hover, ?_⟩
                rw [collapseLoop, hx]
                simp only [hp]
                rw [if_neg (by omega), if_pos (by omega)]
              · have hwrap := toInt64_of_lt (not_le.1 hover)
                push_cast at hwrap
                have hfits : args.length < before.length + m.n ↔ ¬m.n ≤ (x :: rest).length := by
                  rw [List.length_cons]
                  omega
                have hgroup : (args.take (before.length + m.n)).drop before.length =
                    (x :: rest).take m.n := by
                  rw [hargs, List.take_length_add_append, List.drop_left]
                by_cases hfit : m.n ≤ (x :: rest).length
                · have hstep : collapseLoop marks args build (fuel + 1) p before.length out =
                      (build m ((x :: rest).take m.n)).elim .unchanged fun v =>
                        collapseLoop marks args build fuel (p + 1) (before.length + m.n)
                          (out ++ [v]) := by
                    rw [collapseLoop, hx]
                    simp only [hp, hwrap]
                    rw [if_neg (by omega), if_neg (by omega), ← Nat.cast_add, Int.toNat_natCast]
                    cases hbuilt : build m ((x :: rest).take m.n) <;>
                      simp only [hgroup, hbuilt, Option.elim]
                  cases hv : build m ((x :: rest).take m.n) with
                  | none =>
                      rw [hstep, hv]
                      refine .inr ⟨fun h => h.elim hover fun h => h.2.1 rfl,
                        .inl ⟨fun new hnew => ?_, rfl⟩⟩
                      obtain ⟨-, v, rest', -, hv', -⟩ := (regroups_list hp hne).1 hnew
                      rw [hv] at hv'
                      cases hv'
                  | some v =>
                      have hbefore : (before ++ (x :: rest).take m.n).length = before.length + m.n := by
                        rw [List.length_append, List.length_take_of_le hfit]
                      have hdrop : ((x :: rest).drop m.n).length ≤ fuel := by
                        have hpos := m.pos
                        rw [List.length_drop, List.length_cons]
                        omega
                      have hno : ¬Overflows marks build args.length (p + 1) ((x :: rest).drop m.n) →
                          ¬(2 ^ 63 ≤ before.length + m.n ∨ m.n ≤ (x :: rest).length ∧ some v ≠ none ∧
                              Overflows marks build args.length (p + 1) ((x :: rest).drop m.n)) :=
                        fun hnot h => h.elim hover fun h => hnot h.2.2
                      have hrest := ih (before ++ (x :: rest).take m.n) ((x :: rest).drop m.n)
                        (by simp [hargs]) hdrop (p + 1) (out ++ [v])
                      rw [hbefore] at hrest
                      rw [hstep, hv, Option.elim_some]
                      rcases hrest with ⟨hover', hpanic⟩ | ⟨hover', ⟨hnone, hsame⟩ | ⟨new, hnew, hsame⟩⟩
                      · exact .inl ⟨.inr ⟨hfit, Option.some_ne_none v, hover'⟩, hpanic⟩
                      · refine .inr ⟨hno hover', .inl ⟨fun new hnew => ?_, hsame⟩⟩
                        obtain ⟨-, v', new', -, -, hnew'⟩ := (regroups_list hp hne).1 hnew
                        exact hnone new' hnew'
                      · refine .inr ⟨hno hover', .inr ⟨v :: new, ?_, by rw [hsame]; simp⟩⟩
                        exact (regroups_list hp hne).2 ⟨hfit, v, new, rfl, hv, hnew⟩
                · refine .inr ⟨fun h => h.elim hover fun h => hfit h.1, .inl ⟨fun new hnew => ?_, ?_⟩⟩
                  · exact hfit ((regroups_list hp hne).1 hnew).1
                  · rw [collapseLoop, hx]
                    simp only [hp, hwrap]
                    rw [if_pos (by omega)]

/-! ## The result -/

theorem regroups_unmarked (h : marks.keys = []) (p : ℕ) (args : List α) :
    Regroups marks build p args args := by
  induction args generalizing p with
  | nil => exact .nil p
  | cons x args ih =>
      refine .plain (AList.lookup_eq_none.2 fun hp => ?_) (ih (p + 1))
      rw [AList.mem_keys, h] at hp
      cases hp

theorem not_overflows_unmarked {len : ℕ} (h : marks.keys = []) :
    ¬Overflows marks build len p args := by
  have hlookup : ∀ q, marks.lookup q = none := by
    intro q
    refine AList.lookup_eq_none.2 fun hq => ?_
    rw [AList.mem_keys, h] at hq
    cases hq
  intro hover
  induction hover with
  | here _ hp => cases (hlookup _).symm.trans hp
  | plain _ _ ih => exact ih
  | list hp => cases (hlookup _).symm.trans hp

/-- The arguments are regrouped, or as they were, just where no list placeholder is reached whose
group ends past the range of an int. -/
theorem collapses_iff (marks : Marks) (args : List α) (build : ListMark → List α → Option α)
    (hlen : args.length < 2 ^ 63) :
    Collapses marks args build (collapseListArgs marks args build) ↔
      ¬Overflows marks build args.length 0 args := by
  have hloop := @collapseLoop_spec _ marks build args args.length [] args rfl hlen le_rfl 0 []
  rw [List.length_nil] at hloop
  by_cases hmarks : marks.keys = []
  · have hresult : collapseListArgs marks args build = some args := if_pos hmarks
    refine iff_of_true ⟨fun out hout _ => ?_, fun _ => hresult⟩ (not_overflows_unmarked hmarks)
    rw [hresult, (regroups_unmarked hmarks 0 args).unique hout]
  · rcases hloop with ⟨hover, hpanic⟩ | ⟨hover, hends⟩
    · refine iff_of_false (fun h => ?_) (not_not.2 hover)
      have hresult : collapseListArgs marks args build = none := by
        rw [collapseListArgs, if_neg hmarks]
        rw [hpanic]
      by_cases hall : ∃ out, Regroups marks build 0 args out ∧ ∀ p ∈ marks.keys, p < out.length
      · obtain ⟨out, hout, hkeys⟩ := hall
        rw [hresult] at h
        cases h.regrouped out hout hkeys
      · have hsame := h.unchanged fun out hout => by
          by_contra hkeys
          push Not at hkeys
          exact hall ⟨out, hout, hkeys⟩
        rw [hresult] at hsame
        cases hsame
    · refine iff_of_true ?_ hover
      rw [collapseListArgs, if_neg hmarks]
      rcases hends with ⟨hnone, hsame⟩ | ⟨new, hnew, hsame⟩
      · rw [hsame]
        exact ⟨fun out hout => absurd hout (hnone out), fun _ => rfl⟩
      · rw [List.nil_append] at hsame
        rw [hsame]
        simp only
        split
        · rename_i hany
          obtain ⟨p, hp, hle⟩ := List.any_eq_true.1 hany
          refine ⟨fun out hout hkeys => ?_, fun _ => rfl⟩
          rw [hnew.unique hout] at hle
          exact absurd (hkeys p hp) (not_lt.2 (of_decide_eq_true hle))
        · rename_i hany
          refine ⟨fun out hout _ => by rw [hnew.unique hout], fun h => ?_⟩
          obtain ⟨p, hp, hle⟩ := h new hnew
          exact absurd (List.any_eq_true.2 ⟨p, hp, decide_eq_true hle⟩) hany

end Sky.ListParam
