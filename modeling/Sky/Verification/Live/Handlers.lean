import Mathlib
import Sky.Model.ViewVersion

/-! # Clicks reach the view they were made on

The maps that a session holds are those of its most recent distinct views, cut off by
the two limits. -/

namespace Sky.Live

variable {Msg : Type*} {crc : String → ℕ}

/-! ## Runs -/

/-- One render of a session. -/
structure Render (Msg : Type*) where
  body : String
  handlers : Handlers Msg
  time : ℤ

def Render.gen (crc : String → ℕ) (r : Render Msg) : HandlerGen Msg :=
  ⟨liveViewID crc r.body, r.handlers, r.time⟩

/-- The runs of a session, with the renders so far, the latest first. A dispatch that
panics shows the latest view again. The clock does not go back. -/
inductive Rendered (crc : String → ℕ) : LiveSession Msg → List (Render Msg) → Prop where
  | first (handlers body now) : Rendered crc (LiveSession.render crc {} handlers body now)
      [⟨body, handlers, now⟩]
  | next {s last past} (handlers body now) (run : Rendered crc s (last :: past))
      (clock : last.time ≤ now) : Rendered crc (s.render crc handlers body now)
        (⟨body, handlers, now⟩ :: last :: past)
  | panic {s last past} (handlers committed now) (run : Rendered crc s (last :: past))
      (clock : last.time ≤ now) : Rendered crc (s.dispatchPanics crc handlers committed now)
        (⟨last.body, last.handlers, now⟩ :: last :: past)

/-! ## The distinct views -/

/-- The most recent render of every view, the latest first. -/
def recency : List (HandlerGen Msg) → List (HandlerGen Msg)
  | [] => []
  | g :: gs => g :: (recency gs).filter fun g' => g'.view ≠ g.view

/-- The maps within the limits at time `now`, after `n` newer ones. -/
def held (now : ℤ) : ℕ → List (HandlerGen Msg) → List (HandlerGen Msg)
  | _, [] => []
  | n, g :: gs =>
      if liveHandlerCap ≤ n ∨ liveHandlerHistory ≤ n ∧ liveHandlerRecent < now - g.time then []
      else g :: held now (n + 1) gs

variable {view : String} {t now : ℤ} {n m : ℕ} {gs : List (HandlerGen Msg)}

theorem retained_held_of_absent (hgs : ∀ g ∈ gs, g.view ≠ view) (hnm : n ≤ m) (hclock : t ≤ now) :
    LiveSession.retained view now m (held t n gs) = held now m gs := by
  induction gs generalizing n m with
  | nil => rfl
  | cons g gs ih =>
      have hg := hgs g (List.mem_cons_self ..)
      rw [held, held]
      split_ifs with hold hnew hnew
      · rfl
      · omega
      · rw [LiveSession.retained, if_neg hg]
        split_ifs
        · rfl
        · rfl
        · omega
      · rw [not_or] at hnew
        rw [LiveSession.retained, if_neg hg, if_neg hnew.1, if_neg hnew.2,
          ih (fun g' hg' => hgs g' (List.mem_cons_of_mem _ hg')) (Nat.succ_le_succ hnm)]

/-- Later in the list nothing gets back within the limits. -/
theorem held_eq_nil {old : ℤ}
    (hold : liveHandlerCap ≤ n ∨ liveHandlerHistory ≤ n ∧ liveHandlerRecent < t - old)
    (hgs : ∀ g ∈ gs, g.time ≤ old) (hnm : n ≤ m) (hclock : t ≤ now) : held now m gs = [] := by
  cases gs with
  | nil => rfl
  | cons g gs =>
      have hg := hgs g (List.mem_cons_self ..)
      rw [held, if_pos]
      omega

/-- What a render keeps of the maps that were held before it. -/
theorem retained_held (hnodup : (gs.map HandlerGen.view).Nodup)
    (htimes : gs.Pairwise fun g g' => g'.time ≤ g.time) (hclock : t ≤ now) :
    LiveSession.retained view now (n + 1) (held t n gs) =
      held now (n + 1) (gs.filter fun g => g.view ≠ view) := by
  induction gs generalizing n with
  | nil => rfl
  | cons g gs ih =>
      obtain ⟨hg, hnodup⟩ := List.nodup_cons.mp hnodup
      obtain ⟨hlater, htimes⟩ := List.pairwise_cons.mp htimes
      by_cases hview : g.view = view
      · have habsent : ∀ g' ∈ gs, g'.view ≠ view := by
          intro g' hg' heq
          refine hg ?_
          rw [hview, ← heq]
          exact List.mem_map_of_mem hg'
        have hfilter : gs.filter (fun g => g.view ≠ view) = gs := by
          simpa [List.filter_eq_self] using habsent
        rw [List.filter_cons_of_neg (by simpa using hview), hfilter, held]
        split_ifs with hold
        · exact (held_eq_nil hold hlater (Nat.le_succ n) hclock).symm
        · rw [LiveSession.retained, if_pos hview]
          exact retained_held_of_absent habsent (Nat.le_refl _) hclock
      · rw [List.filter_cons_of_pos (by simpa using hview), held, held]
        split_ifs with hold hnew hnew
        · rfl
        · omega
        · rw [LiveSession.retained, if_neg hview]
          split_ifs
          · rfl
          · rfl
          · omega
        · rw [not_or] at hnew
          rw [LiveSession.retained, if_neg hview, if_neg hnew.1, if_neg hnew.2, ih hnodup htimes]

theorem mem_of_mem_recency {g : HandlerGen Msg} (h : g ∈ recency gs) : g ∈ gs := by
  induction gs with
  | nil => exact h
  | cons g' gs ih =>
      rcases List.mem_cons.mp h with rfl | h
      · exact List.mem_cons_self ..
      · exact List.mem_cons_of_mem _ (ih (List.mem_of_mem_filter h))

theorem nodup_recency (gs : List (HandlerGen Msg)) : ((recency gs).map HandlerGen.view).Nodup := by
  induction gs with
  | nil => exact List.nodup_nil
  | cons g gs ih =>
      rw [recency, List.map_cons, List.nodup_cons]
      refine ⟨fun hmem => ?_, ih.sublist (List.filter_sublist.map _)⟩
      obtain ⟨g', hg', heq⟩ := List.mem_map.mp hmem
      exact (of_decide_eq_true (List.mem_filter.mp hg').2) heq

theorem times_recency (htimes : gs.Pairwise fun g g' => g'.time ≤ g.time) :
    (recency gs).Pairwise fun g g' => g'.time ≤ g.time := by
  induction gs with
  | nil => exact .nil
  | cons g gs ih =>
      obtain ⟨hlater, htimes⟩ := List.pairwise_cons.mp htimes
      exact .cons (fun g' hg' => hlater g' (mem_of_mem_recency (List.mem_of_mem_filter hg')))
        ((ih htimes).sublist List.filter_sublist)

/-! ## The session -/

/-- The session shows the latest render and holds the maps within the limits. -/
structure Shows (crc : String → ℕ) (s : LiveSession Msg) (last : Render Msg)
    (past : List (Render Msg)) : Prop where
  body : s.lastComputedBody = last.body
  handlers : s.handlers = last.handlers
  gens : s.handlerGens = held last.time 0 (recency ((last :: past).map (Render.gen crc)))
  times : ((last :: past).map (Render.gen crc)).Pairwise fun g g' => g'.time ≤ g.time

theorem Shows.commitRender {s : LiveSession Msg} {last : Render Msg} {past : List (Render Msg)}
    (h : Shows crc s last past) (s' : LiveSession Msg) (hgens : s'.handlerGens = s.handlerGens)
    (body : String) (hnow : last.time ≤ now) :
    Shows crc (s'.commitRender crc body now) ⟨body, s'.handlers, now⟩ (last :: past) where
  body := rfl
  handlers := rfl
  gens := by
    rw [LiveSession.commitRender, LiveSession.recordRenderGeneration, List.map_cons, recency, held,
      if_neg (by simp [liveHandlerCap, liveHandlerHistory])]
    refine congrArg (List.cons _) ?_
    rw [hgens, h.gens]
    exact retained_held (nodup_recency _) (times_recency h.times) hnow
  times := by
    have htimes := h.times
    rw [List.map_cons] at htimes ⊢
    refine .cons (fun g hg => ?_) htimes
    rcases List.mem_cons.mp hg with rfl | hg
    · exact hnow
    · exact ((List.pairwise_cons.mp htimes).1 g hg).trans hnow

theorem Rendered.shows {s : LiveSession Msg} {last : Render Msg} {past : List (Render Msg)}
    (h : Rendered crc s (last :: past)) : Shows crc s last past := by
  generalize hall : last :: past = all at h
  induction h generalizing last past with
  | first handlers body now =>
      obtain ⟨rfl, rfl⟩ := List.cons.inj hall
      exact ⟨rfl, rfl, rfl, .cons nofun .nil⟩
  | @next s last past handlers body now run clock ih =>
      obtain ⟨rfl, rfl⟩ := List.cons.inj hall
      exact (ih rfl).commitRender { s with handlers := handlers } rfl body clock
  | panic handlers committed now run clock ih =>
      obtain ⟨rfl, rfl⟩ := List.cons.inj hall
      have hshows := ih rfl
      rw [LiveSession.dispatchPanics, hshows.body, ← hshows.handlers]
      exact hshows.commitRender _ rfl _ clock

/-! ## Clicks -/

/-- The most recent render of a view. -/
def mostRecent (crc : String → ℕ) (view : String) (renders : List (Render Msg)) :
    Option (Render Msg) :=
  renders.find? fun r => liveViewID crc r.body = view

/-- How many other views were rendered since the view was rendered last. -/
def viewsSince (crc : String → ℕ) (view : String) (renders : List (Render Msg)) : ℕ :=
  ((renders.map fun r => liveViewID crc r.body).takeWhile (· ≠ view)).toFinset.card

/-- The limits for a map of time `old`, `n` distinct views ago. -/
def WithinLimits (n : ℕ) (old now : ℤ) : Prop :=
  n < liveHandlerHistory ∨ n < liveHandlerCap ∧ now - old ≤ liveHandlerRecent

instance (n : ℕ) (old now : ℤ) : Decidable (WithinLimits n old now) :=
  inferInstanceAs (Decidable (_ ∨ _ ∧ _))

theorem find?_held (htimes : gs.Pairwise fun g g' => g'.time ≤ g.time) :
    ((held now n gs).find? fun g => g.view = view) =
      (gs.find? fun g => g.view = view).filter fun g =>
        WithinLimits (n + (gs.takeWhile fun g => g.view ≠ view).length) g.time now := by
  induction gs generalizing n with
  | nil => rfl
  | cons g gs ih =>
      obtain ⟨hlater, htimes⟩ := List.pairwise_cons.mp htimes
      rw [held]
      by_cases hview : g.view = view
      · rw [List.find?_cons_of_pos (by simpa using hview),
          List.takeWhile_cons_of_neg (by simpa using hview), List.length_nil, Nat.add_zero]
        split_ifs with hold
        · have hlimits : ¬ WithinLimits n g.time now := by
            rw [WithinLimits]
            simp only [liveHandlerHistory, liveHandlerCap] at hold ⊢
            omega
          simp [Option.filter, hlimits]
        · have hlimits : WithinLimits n g.time now := by
            rw [WithinLimits]
            simp only [liveHandlerHistory, liveHandlerCap] at hold ⊢
            omega
          simp [Option.filter, hlimits, hview]
      · rw [List.find?_cons_of_neg (by simpa using hview),
          List.takeWhile_cons_of_pos (by simpa using hview), List.length_cons]
        split_ifs with hold
        · symm
          rw [List.find?_nil, Option.filter_eq_none_iff]
          intro g' hg'
          have htime := hlater g' (List.mem_of_find?_eq_some hg')
          rw [decide_eq_true_eq, WithinLimits]
          simp only [liveHandlerHistory, liveHandlerCap] at hold ⊢
          omega
        · rw [List.find?_cons_of_neg (by simpa using hview), ih htimes, Nat.add_right_comm,
            Nat.add_assoc]

theorem find?_recency (gs : List (HandlerGen Msg)) :
    ((recency gs).find? fun g => g.view = view) = gs.find? fun g => g.view = view := by
  induction gs with
  | nil => rfl
  | cons g gs ih =>
      rw [recency]
      by_cases hview : g.view = view
      · rw [List.find?_cons_of_pos (by simpa using hview),
          List.find?_cons_of_pos (by simpa using hview)]
      · rw [List.find?_cons_of_neg (by simpa using hview),
          List.find?_cons_of_neg (by simpa using hview), List.find?_filter, ← ih]
        refine List.find?_congr fun g' _ => ?_
        by_cases hg' : g'.view = view
        · have hne : ¬ view = g.view := fun heq => hview heq.symm
          simp [hg', hne]
        · simp [hg']

theorem takeWhile_filter_comm {α : Type*} {p q : α → Bool} {l : List α}
    (h : ∀ a ∈ l, q a = false → p a = true) :
    (l.filter q).takeWhile p = (l.takeWhile p).filter q := by
  induction l with
  | nil => rfl
  | cons a l ih =>
      have ih := ih fun b hb => h b (List.mem_cons_of_mem _ hb)
      cases hq : q a with
      | false =>
          have hp := h a (List.mem_cons_self ..) hq
          rw [List.filter_cons_of_neg (by simpa using hq), ih, List.takeWhile_cons_of_pos hp,
            List.filter_cons_of_neg (by simpa using hq)]
      | true =>
          rw [List.filter_cons_of_pos hq]
          cases hp : p a with
          | false =>
              rw [List.takeWhile_cons_of_neg (by simpa using hp),
                List.takeWhile_cons_of_neg (by simpa using hp)]
              rfl
          | true =>
              rw [List.takeWhile_cons_of_pos hp, List.takeWhile_cons_of_pos hp, ih,
                List.filter_cons_of_pos hq]

theorem mem_before_recency (gs : List (HandlerGen Msg)) (x : String) :
    x ∈ ((recency gs).takeWhile fun g => g.view ≠ view).map HandlerGen.view ↔
      x ∈ (gs.map HandlerGen.view).takeWhile (· ≠ view) := by
  induction gs with
  | nil => rfl
  | cons g gs ih =>
      rw [recency, List.map_cons]
      by_cases hview : g.view = view
      · rw [List.takeWhile_cons_of_neg (by simpa using hview),
          List.takeWhile_cons_of_neg (by simpa using hview)]
        rfl
      · have hfilter : ∀ g' ∈ recency gs, decide (g'.view ≠ g.view) = false →
            decide (g'.view ≠ view) = true := by
          intro g' _ hg'
          rw [decide_eq_false_iff_not, not_not] at hg'
          rw [hg']
          exact decide_eq_true hview
        rw [List.takeWhile_cons_of_pos (by simpa using hview),
          List.takeWhile_cons_of_pos (by simpa using hview), takeWhile_filter_comm hfilter,
          List.map_cons, List.mem_cons, List.mem_cons, ← ih]
        by_cases hx : x = g.view
        · simp [hx]
        · simp only [hx, false_or, List.mem_map, List.mem_filter, decide_eq_true_eq]
          constructor
          · rintro ⟨g', ⟨hg', -⟩, rfl⟩
            exact ⟨g', hg', rfl⟩
          · rintro ⟨g', hg', rfl⟩
            exact ⟨g', ⟨hg', hx⟩, rfl⟩

theorem length_before_recency (renders : List (Render Msg)) :
    ((recency (renders.map (Render.gen crc))).takeWhile fun g => g.view ≠ view).length =
      viewsSince crc view renders := by
  have hnodup : (((recency (renders.map (Render.gen crc))).takeWhile fun g => g.view ≠ view).map
      HandlerGen.view).Nodup :=
    (nodup_recency _).sublist ((List.takeWhile_sublist _).map _)
  rw [← List.length_map HandlerGen.view, ← List.toFinset_card_of_nodup hnodup, viewsSince]
  refine congrArg Finset.card (Finset.ext fun x => ?_)
  rw [List.mem_toFinset, List.mem_toFinset, mem_before_recency, List.map_map]
  rfl

theorem find?_gens (renders : List (Render Msg)) :
    ((renders.map (Render.gen crc)).find? fun g => g.view = view) =
      (mostRecent crc view renders).map (Render.gen crc) := by
  rw [List.find?_map]
  rfl

theorem liveViewID_ne_empty (body : String) : liveViewID crc body ≠ "" := by
  intro h
  rw [liveViewID, String.append_eq_empty_iff, String.append_eq_empty_iff] at h
  exact absurd h.1.2 (by decide)

/-- Renders of ever longer bodies, all at one moment. -/
def burst : ℕ → LiveSession ℕ × List (Render ℕ)
  | 0 => (LiveSession.render (fun _ => 0) {} ((∅ : Handlers ℕ).insert "h" 0) "" 0,
      [⟨"", (∅ : Handlers ℕ).insert "h" 0, 0⟩])
  | n + 1 =>
      let body := String.ofList (List.replicate (n + 1) 'x')
      let handlers := (∅ : Handlers ℕ).insert "h" (n + 1)
      ((burst n).1.render (fun _ => 0) handlers body 0, ⟨body, handlers, 0⟩ :: (burst n).2)

theorem rendered_burst (n : ℕ) :
    ∃ last past, (burst n).2 = last :: past ∧ last.time = 0 ∧
      Rendered (fun _ => 0) (burst n).1 (last :: past) := by
  induction n with
  | zero => exact ⟨_, [], rfl, rfl, .first _ _ _⟩
  | succ n ih =>
      obtain ⟨last, past, hrenders, htime, hrun⟩ := ih
      refine ⟨_, (burst n).2, rfl, rfl, ?_⟩
      rw [hrenders]
      exact .next _ _ 0 hrun (by rw [htime])

end Sky.Live
