import Mathlib.Data.List.TakeWhile
import Mathlib.Tactic

/-!
# Tokens cut out of a list

A scan over a list asks at each place, knowing the entry before it, how long a token starts there.
Entries where none does are kept, and each token is rewritten as a whole.
-/

namespace GrokBuild.TokenCuts

variable {α : Type}

inductive Piece (α : Type) where
  | kept (a : α)
  | token (t : List α)

/-- The pieces of a list, where `cut` gives the length of the token at a place, or 0. -/
@[grind] def pieces (cut : Option α → List α → ℕ) : Option α → List α → List (Piece α)
  | _, [] => []
  | prev, a :: s =>
    if cut prev (a :: s) = 0 then .kept a :: pieces cut (some a) s
    else .token ((a :: s).take (cut prev (a :: s))) ::
      pieces cut ((a :: s).take (cut prev (a :: s))).getLast? ((a :: s).drop (cut prev (a :: s)))
termination_by _ s => s.length
decreasing_by
  · simp
  · simp only [List.length_drop, List.length_cons]
    omega

@[grind] def render (f : List α → List α) : List (Piece α) → List α
  | [] => []
  | .kept a :: rest => a :: render f rest
  | .token t :: rest => f t ++ render f rest

@[grind] def tokens : List (Piece α) → List (List α)
  | [] => []
  | .kept _ :: rest => tokens rest
  | .token t :: rest => t :: tokens rest

section General

variable {cut : Option α → List α → ℕ} {f g : List α → List α}

theorem pieces_kept {prev : Option α} {a : α} {s : List α} (h : cut prev (a :: s) = 0) :
    pieces cut prev (a :: s) = .kept a :: pieces cut (some a) s := by
  rw [pieces, if_pos h]

theorem pieces_token {prev : Option α} {s : List α} (hs : s ≠ []) (h : cut prev s ≠ 0) :
    pieces cut prev s = .token (s.take (cut prev s)) ::
      pieces cut (s.take (cut prev s)).getLast? (s.drop (cut prev s)) := by
  obtain ⟨a, s, rfl⟩ := List.exists_cons_of_ne_nil hs
  rw [pieces, if_neg h]

theorem render_id (prev : Option α) (s : List α) : render id (pieces cut prev s) = s := by
  induction prev, s using pieces.induct cut with
  | case1 prev => rw [pieces, render]
  | case2 prev a s hcut ih => rw [pieces_kept hcut, render, ih]
  | case3 prev a s hcut ih =>
    rw [pieces_token (List.cons_ne_nil a s) hcut, render, ih]
    exact List.take_append_drop _ _

theorem render_congr {ps : List (Piece α)} (h : ∀ t ∈ tokens ps, f t = g t) :
    render f ps = render g ps := by
  induction ps with
  | nil => rfl
  | cons p ps ih =>
    cases p with
    | kept a => rw [render, render, ih h]
    | token t =>
      rw [render, render, h t List.mem_cons_self,
        ih fun t' ht' => h t' (List.mem_cons_of_mem _ ht')]

theorem render_of_no_cut {s : List α} (h : ∀ prev rest, rest <:+ s → cut prev rest = 0)
    (prev : Option α) : render f (pieces cut prev s) = s := by
  induction s generalizing prev with
  | nil => rw [pieces, render]
  | cons a s ih =>
    rw [pieces_kept (h prev (a :: s) List.suffix_rfl), render,
      ih fun prev rest hrest => h prev rest (hrest.trans (List.suffix_cons a s))]

end General

section Runs

/-- A token is the longest run of entries from a place where it can start. -/
def runCut (starts blocks inRun : α → Bool) (prev : Option α) (s : List α) : ℕ :=
  if s.head?.any starts && !prev.any blocks then (s.takeWhile inRun).length else 0

variable {starts blocks inRun : α → Bool} {f : List α → List α}

theorem runCut_cons_eq_zero_iff (hstarts : ∀ a, starts a = true → inRun a = true)
    {prev : Option α} {a : α} {s : List α} :
    runCut starts blocks inRun prev (a :: s) = 0 ↔ (starts a = true → prev.any blocks = true) := by
  rw [runCut, List.head?_cons, Option.any_some]
  cases ha : starts a with
  | false => simp
  | true =>
    rw [List.takeWhile_cons_of_pos (hstarts a ha)]
    cases prev.any blocks with
    | false => simp
    | true => simp

theorem take_runCut {prev : Option α} {s : List α} (h : runCut starts blocks inRun prev s ≠ 0) :
    s.take (runCut starts blocks inRun prev s) = s.takeWhile inRun ∧
      s.drop (runCut starts blocks inRun prev s) = s.dropWhile inRun := by
  have hcut : runCut starts blocks inRun prev s = (s.takeWhile inRun).length := by
    rw [runCut] at h ⊢
    split
    · rfl
    · next hnot => exact absurd (if_neg hnot) h
  rw [hcut]
  refine ⟨(List.prefix_iff_eq_take.1 (List.takeWhile_prefix inRun)).symm, ?_⟩
  have happend := List.takeWhile_append_dropWhile (p := inRun) (l := s)
  calc s.drop (s.takeWhile inRun).length
      = (s.takeWhile inRun ++ s.dropWhile inRun).drop (s.takeWhile inRun).length := by rw [happend]
    _ = s.dropWhile inRun := List.drop_left

/-- Where a run stops. -/
def Stops (inRun : α → Bool) (s : List α) : Prop := ∀ a ∈ s.head?, inRun a = false

theorem stops_dropWhile (s : List α) : Stops inRun (s.dropWhile inRun) := by
  induction s with
  | nil => exact fun a ha => by cases ha
  | cons b s ih =>
    cases hb : inRun b with
    | true =>
      rw [List.dropWhile_cons_of_pos hb]
      exact ih
    | false =>
      rw [List.dropWhile_cons_of_neg (by simp [hb])]
      intro a ha
      exact Option.some.inj ha ▸ hb

theorem takeWhile_append_stop {t s : List α} (ht : ∀ a ∈ t, inRun a = true) (hs : Stops inRun s) :
    (t ++ s).takeWhile inRun = t := by
  rw [List.takeWhile_append_of_pos ht]
  cases s with
  | nil => rw [List.takeWhile_nil, List.append_nil]
  | cons a s => rw [List.takeWhile_cons_of_neg (by simp [hs a rfl]), List.append_nil]

theorem dropWhile_append_stop {t s : List α} (ht : ∀ a ∈ t, inRun a = true) (hs : Stops inRun s) :
    (t ++ s).dropWhile inRun = s := by
  have happend := List.takeWhile_append_dropWhile (p := inRun) (l := t ++ s)
  rw [takeWhile_append_stop ht hs] at happend
  exact List.append_cancel_left happend

variable (hstarts : ∀ a, starts a = true → inRun a = true)
include hstarts

theorem pieces_stops {prev : Option α} {s : List α} (hs : Stops inRun s) :
    s = [] ∨ ∃ a rest, s = a :: rest ∧ pieces (runCut starts blocks inRun) prev s =
      .kept a :: pieces (runCut starts blocks inRun) (some a) rest := by
  cases s with
  | nil => exact Or.inl rfl
  | cons a rest =>
    refine Or.inr ⟨a, rest, rfl, pieces_kept ?_⟩
    rw [runCut_cons_eq_zero_iff hstarts]
    intro ha
    have hrun := hstarts a ha
    rw [hs a rfl] at hrun
    cases hrun

theorem stops_render {prev : Option α} {s : List α} (hs : Stops inRun s) :
    Stops inRun (render f (pieces (runCut starts blocks inRun) prev s)) := by
  obtain rfl | ⟨a, rest, rfl, hpieces⟩ := pieces_stops hstarts hs
  · rw [pieces, render]
    exact hs
  · rw [hpieces, render]
    exact fun b hb => hs b hb

/-- A list stays as it is exactly when each token does, as long as what a token becomes is a run
again. -/
theorem render_eq_self_iff (prev : Option α) (s : List α)
    (hf : ∀ t ∈ tokens (pieces (runCut starts blocks inRun) prev s), ∀ a ∈ f t, inRun a = true) :
    render f (pieces (runCut starts blocks inRun) prev s) = s ↔
      ∀ t ∈ tokens (pieces (runCut starts blocks inRun) prev s), f t = t := by
  induction prev, s using pieces.induct (runCut starts blocks inRun) with
  | case1 prev => simp [pieces, render, tokens]
  | case2 prev a s hcut ih =>
    rw [pieces_kept hcut] at hf ⊢
    rw [render, tokens, List.cons.injEq, and_iff_right rfl]
    exact ih hf
  | case3 prev a s hcut ih =>
    obtain ⟨htake, hdrop⟩ := take_runCut hcut
    rw [pieces_token (List.cons_ne_nil a s) hcut] at hf ⊢
    rw [render, tokens, List.forall_mem_cons]
    rw [tokens, List.forall_mem_cons] at hf
    rw [htake, hdrop] at hf ih ⊢
    have hsplit : a :: s = (a :: s).takeWhile inRun ++ (a :: s).dropWhile inRun :=
      List.takeWhile_append_dropWhile.symm
    constructor
    · intro heq
      -- both sides have their run up to the same place
      have hrun : f ((a :: s).takeWhile inRun) = (a :: s).takeWhile inRun := by
        rw [← takeWhile_append_stop hf.1 (stops_render hstarts (stops_dropWhile (a :: s))), heq]
      refine ⟨hrun, (ih hf.2).1 ?_⟩
      rw [hrun] at heq
      exact List.append_cancel_left (heq.trans hsplit)
    · rintro ⟨hrun, hrest⟩
      rw [hrun, (ih hf.2).2 hrest]
      exact hsplit.symm

theorem render_pieces_of_stops {g : List α → List α} (prev prev' : Option α) {s : List α}
    (hs : Stops inRun s) : render g (pieces (runCut starts blocks inRun) prev s) =
      render g (pieces (runCut starts blocks inRun) prev' s) := by
  obtain rfl | ⟨a, rest, rfl, hpieces⟩ := pieces_stops hstarts hs
  · rw [pieces, pieces]
  · obtain hnil | ⟨b, rest', heq, hpieces'⟩ :=
      pieces_stops hstarts hs
    · cases hnil
    · obtain ⟨rfl, rfl⟩ := List.cons.inj heq
      rw [hpieces, hpieces']

/-- Tokens that become tokens are found again. -/
theorem render_render (g : List α → List α) (prev : Option α) (s : List α)
    (hf : ∀ t ∈ tokens (pieces (runCut starts blocks inRun) prev s),
      (∀ a ∈ f t, inRun a = true) ∧ (f t).head?.any starts = true) :
    render g (pieces (runCut starts blocks inRun) prev
      (render f (pieces (runCut starts blocks inRun) prev s))) =
        render (fun t => g (f t)) (pieces (runCut starts blocks inRun) prev s) := by
  induction prev, s using pieces.induct (runCut starts blocks inRun) with
  | case1 prev => rw [pieces, render, pieces, render, render]
  | case2 prev a s hcut ih =>
    rw [pieces_kept hcut] at hf ⊢
    have hcut' : runCut starts blocks inRun prev
        (a :: render f (pieces (runCut starts blocks inRun) (some a) s)) = 0 := by
      rw [runCut_cons_eq_zero_iff hstarts] at hcut ⊢
      exact hcut
    rw [render, render, pieces_kept hcut', render, ih hf]
  | case3 prev a s hcut ih =>
    obtain ⟨htake, hdrop⟩ := take_runCut hcut
    rw [pieces_token (List.cons_ne_nil a s) hcut] at hf ⊢
    rw [tokens, List.forall_mem_cons] at hf
    rw [render, render]
    rw [htake, hdrop] at hf ih ⊢
    obtain ⟨⟨hrun, hstart⟩, hrest⟩ := hf
    set t := (a :: s).takeWhile inRun
    set s' := (a :: s).dropWhile inRun with hs'
    set rest := render f (pieces (runCut starts blocks inRun) t.getLast? s') with hrestEq
    have hstops : Stops inRun rest := stops_render hstarts (hs' ▸ stops_dropWhile (a :: s))
    have hne : f t ++ rest ≠ [] := by
      intro hnil
      rw [(List.append_eq_nil_iff.1 hnil).1] at hstart
      cases hstart
    have hblocks : prev.any blocks = false := by
      by_contra hblocked
      rw [Bool.not_eq_false] at hblocked
      rw [runCut, hblocked, Bool.not_true, Bool.and_false] at hcut
      exact hcut rfl
    -- the rewritten token is cut out where the token was
    have hcut' : runCut starts blocks inRun prev (f t ++ rest) ≠ 0 := by
      have hlength : 0 < (f t).length := by
        cases hft : f t with
        | nil => rw [hft] at hstart; cases hstart
        | cons b t' => exact Nat.succ_pos _
      have hhead : (f t ++ rest).head?.any starts = true := by
        rw [List.head?_append_of_ne_nil _ (List.length_pos_iff.1 hlength)]
        exact hstart
      rw [runCut, hhead, hblocks, Bool.not_false, Bool.and_self, if_pos rfl,
        takeWhile_append_stop hrun hstops]
      exact hlength.ne'
    obtain ⟨htake', hdrop'⟩ := take_runCut hcut'
    rw [pieces_token hne hcut', render, htake', hdrop', takeWhile_append_stop hrun hstops,
      dropWhile_append_stop hrun hstops, render_pieces_of_stops hstarts _ t.getLast? hstops,
      ih hrest]

end Runs

end GrokBuild.TokenCuts
