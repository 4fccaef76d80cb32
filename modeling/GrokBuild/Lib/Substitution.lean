import Mathlib.Data.List.Basic
import Mathlib.Data.List.Range
import Mathlib.Tactic.Common
import Mathlib.Data.Int.Order.Basic

/-!
# Simultaneous substitution of ranges of a list

An edit replaces the elements of a half-open range by new ones; an empty range is an
insertion point. Edits of disjoint ranges, spliced from the last to the first, give the
list in which every edit has been carried out at once, at the positions of the original.
-/

namespace GrokBuild.Substitution

structure Edit (α : Type*) where
  start : ℕ
  stop : ℕ
  new : List α

variable {α β : Type*}

namespace Edit

def splice (e : Edit α) (xs : List α) : List α :=
  xs.take e.start ++ e.new ++ xs.drop e.stop

def Covers (e : Edit α) (i : ℕ) : Prop := e.start ≤ i ∧ i < e.stop

instance (e : Edit α) (i : ℕ) : Decidable (e.Covers i) := by
  unfold Covers
  infer_instance

structure Fits (e : Edit α) (n : ℕ) : Prop where
  le : e.start ≤ e.stop
  bound : e.stop ≤ n

/-- The range of the first ends where that of the second starts, or earlier. -/
def Before (e e' : Edit α) : Prop := e.stop ≤ e'.start

def map (f : α → β) (e : Edit α) : Edit β := ⟨e.start, e.stop, e.new.map f⟩

end Edit

/-- What stands at position `i` after the substitution: the new elements of the edits that
start there, in order, and the element itself when no edit covers it. -/
def piece (edits : List (Edit α)) (xs : List α) (i : ℕ) : List α :=
  (edits.filter fun e => e.start = i).flatMap (·.new) ++
    if ∃ e ∈ edits, e.Covers i then [] else xs[i]?.toList

def substitute (edits : List (Edit α)) (xs : List α) : List α :=
  (List.range (xs.length + 1)).flatMap (piece edits xs)

/-- The same list from position `p` on, for edits in order. -/
def weave (xs : List α) : ℕ → List (Edit α) → List α
  | p, [] => xs.drop p
  | p, e :: edits => (xs.drop p).take (e.start - p) ++ e.new ++ weave xs e.stop edits

variable {xs : List α} {edits : List (Edit α)} {e : Edit α} {p : ℕ}

/-! ## Splicing from the last edit to the first -/

theorem foldr_splice_eq_weave (hb : edits.Pairwise Edit.Before)
    (hf : ∀ e ∈ edits, e.Fits xs.length) (hp : ∀ e ∈ edits, p ≤ e.start) (hpn : p ≤ xs.length) :
    edits.foldr Edit.splice xs = xs.take p ++ weave xs p edits := by
  induction edits generalizing p with
  | nil => simp [weave]
  | cons e edits ih =>
    obtain ⟨hfirst, hrest⟩ := List.pairwise_cons.mp hb
    have hfit := hf e List.mem_cons_self
    have hpe := hp e List.mem_cons_self
    have hrec := ih hrest (fun e' he' => hf e' (List.mem_cons_of_mem _ he')) hfirst hfit.bound
    have hlen : (xs.take e.stop).length = e.stop := by
      rw [List.length_take, Nat.min_eq_left hfit.bound]
    have htake : (xs.take e.stop ++ weave xs e.stop edits).take e.start = xs.take e.start := by
      rw [List.take_append_of_le_length (by rw [hlen]; exact hfit.le), List.take_take,
        Nat.min_eq_left hfit.le]
    have hdrop : (xs.take e.stop ++ weave xs e.stop edits).drop e.stop
        = weave xs e.stop edits := by
      rw [List.drop_append_of_le_length hlen.ge]
      simp
    have hsplit : xs.take e.start = xs.take p ++ (xs.drop p).take (e.start - p) := by
      rw [← List.take_append_drop p (xs.take e.start), List.take_take, Nat.min_eq_left hpe,
        List.drop_take]
    simp only [List.foldr_cons, hrec, Edit.splice, weave, htake, hdrop]
    rw [hsplit]
    simp only [List.append_assoc]

/-! ## Position by position -/

theorem piece_nil (xs : List α) (i : ℕ) : piece [] xs i = xs[i]?.toList := by
  simp [piece]

theorem flatMap_getElem (xs : List α) (p m : ℕ) :
    ((List.range' p m).flatMap fun i => xs[i]?.toList) = (xs.drop p).take m := by
  induction m generalizing p with
  | zero => simp
  | succ m ih =>
    rw [List.range'_succ, List.flatMap_cons, ih]
    rcases lt_or_ge p xs.length with h | h
    · rw [List.getElem?_eq_getElem h, List.drop_eq_getElem_cons h, List.take_succ_cons]
      rfl
    · rw [List.getElem?_eq_none h, List.drop_eq_nil_of_le h, List.drop_eq_nil_of_le (by omega)]
      simp

/-- Positions before every edit keep their elements. -/
theorem flatMap_piece_before {m : ℕ} (h : ∀ e ∈ edits, p + m ≤ e.start) :
    (List.range' p m).flatMap (piece edits xs) = (xs.drop p).take m := by
  rw [← flatMap_getElem]
  apply List.flatMap_congr
  intro i hi
  obtain ⟨hpi, him⟩ := List.mem_range'_1.mp hi
  have hstart : edits.filter (fun e => e.start = i) = [] := by
    rw [List.filter_eq_nil_iff]
    intro e he
    have := h e he
    simp only [decide_eq_true_eq]
    omega
  have hcov : ¬ ∃ e ∈ edits, e.Covers i := by
    rintro ⟨e, he, hc⟩
    have := h e he
    have := hc.1
    omega
  simp [piece, hstart, hcov]

/-- Past the range of the first edit only the others count. -/
theorem piece_cons_of_lt {i : ℕ} (hs : e.start < i) (he : e.stop ≤ i) :
    piece (e :: edits) xs i = piece edits xs i := by
  have hc : ¬ e.Covers i := fun hc => by have := hc.2; omega
  have hne : e.start ≠ i := by omega
  simp [piece, hc, hne]

theorem piece_cons_insertion {i : ℕ} (hs : e.start = i) (he : e.stop = i) :
    piece (e :: edits) xs i = e.new ++ piece edits xs i := by
  have hc : ¬ e.Covers i := fun hc => by have := hc.2; omega
  simp [piece, hc, hs]

theorem piece_cons_start {i : ℕ} (hs : e.start = i) (he : i < e.stop)
    (hlater : ∀ e' ∈ edits, e.stop ≤ e'.start) : piece (e :: edits) xs i = e.new := by
  have hc : e.Covers i := ⟨hs.le, he⟩
  have hrest : edits.filter (fun e' => e'.start = i) = [] := by
    rw [List.filter_eq_nil_iff]
    intro e' he'
    have := hlater e' he'
    simp only [decide_eq_true_eq]
    omega
  simp [piece, hc, hs, hrest]

theorem piece_cons_inside {i : ℕ} (hs : e.start < i) (he : i < e.stop)
    (hlater : ∀ e' ∈ edits, e.stop ≤ e'.start) : piece (e :: edits) xs i = [] := by
  have hc : e.Covers i := ⟨hs.le, he⟩
  have hrest : edits.filter (fun e' => e'.start = i) = [] := by
    rw [List.filter_eq_nil_iff]
    intro e' he'
    have := hlater e' he'
    simp only [decide_eq_true_eq]
    omega
  have hne : e.start ≠ i := by omega
  simp [piece, hc, hne, hrest]

theorem flatMap_piece_eq_weave (hb : edits.Pairwise Edit.Before)
    (hf : ∀ e ∈ edits, e.Fits xs.length) (hp : ∀ e ∈ edits, p ≤ e.start) (hpn : p ≤ xs.length) :
    (List.range' p (xs.length + 1 - p)).flatMap (piece edits xs) = weave xs p edits := by
  induction edits generalizing p with
  | nil =>
    have hlen : (xs.drop p).length ≤ xs.length + 1 - p := by
      rw [List.length_drop]
      omega
    have hpiece : piece [] xs = fun i => xs[i]?.toList := by
      funext i
      exact piece_nil xs i
    rw [weave, hpiece, flatMap_getElem, List.take_of_length_le hlen]
  | cons e edits ih =>
    obtain ⟨hfirst, hrest⟩ := List.pairwise_cons.mp hb
    have hfit := hf e List.mem_cons_self
    obtain ⟨hle, hbound⟩ := hfit
    have hpe := hp e List.mem_cons_self
    have hrec := ih hrest (fun e' he' => hf e' (List.mem_cons_of_mem _ he')) hfirst hbound
    have hstarts : ∀ e' ∈ e :: edits, p + (e.start - p) ≤ e'.start := by
      intro e' he'
      rcases List.mem_cons.mp he' with rfl | he'
      · omega
      · have : e.stop ≤ e'.start := hfirst e' he'
        omega
    have hsplit : List.range' p (xs.length + 1 - p) =
        List.range' p (e.start - p) ++ List.range' e.start (xs.length + 1 - e.start) := by
      have h := List.range'_append_1 (s := p) (m := e.start - p) (n := xs.length + 1 - e.start)
      rw [show p + (e.start - p) = e.start by omega,
        show e.start - p + (xs.length + 1 - e.start) = xs.length + 1 - p by omega] at h
      exact h.symm
    have htail : (List.range' e.start (xs.length + 1 - e.start)).flatMap (piece (e :: edits) xs) =
        e.new ++ weave xs e.stop edits := by
      rcases Nat.eq_or_lt_of_le hle with heq | hlt
      · rw [← hrec, ← heq, show xs.length + 1 - e.start = xs.length - e.start + 1 by omega,
          List.range'_succ, List.flatMap_cons, List.flatMap_cons,
          piece_cons_insertion rfl heq.symm, List.append_assoc]
        congr 2
        apply List.flatMap_congr
        intro i hi
        have := (List.mem_range'_1.mp hi).1
        exact piece_cons_of_lt (by omega) (by omega)
      · rw [← hrec, show xs.length + 1 - e.start =
            (e.stop - e.start - 1) + (xs.length + 1 - e.stop) + 1 by omega,
          List.range'_succ, List.flatMap_cons, piece_cons_start rfl hlt hfirst,
          ← List.range'_append_1, List.flatMap_append,
          show e.start + 1 + (e.stop - e.start - 1) = e.stop by omega]
        have hinside : (List.range' (e.start + 1) (e.stop - e.start - 1)).flatMap
            (piece (e :: edits) xs) = [] := by
          rw [List.flatMap_eq_nil_iff]
          intro i hi
          obtain ⟨h1, h2⟩ := List.mem_range'_1.mp hi
          exact piece_cons_inside (by omega) (by omega) hfirst
        rw [hinside, List.nil_append]
        congr 1
        apply List.flatMap_congr
        intro i hi
        have := (List.mem_range'_1.mp hi).1
        exact piece_cons_of_lt (by omega) (by omega)
    rw [hsplit, List.flatMap_append, flatMap_piece_before hstarts, htail, weave,
      List.append_assoc]

/-- Splicing disjoint edits from the last to the first is the simultaneous substitution. -/
theorem foldr_splice_eq_substitute (hb : edits.Pairwise Edit.Before)
    (hf : ∀ e ∈ edits, e.Fits xs.length) :
    edits.foldr Edit.splice xs = substitute edits xs := by
  rw [foldr_splice_eq_weave hb hf (fun _ _ => Nat.zero_le _) (Nat.zero_le _), substitute,
    List.range_eq_range', ← flatMap_piece_eq_weave hb hf (fun _ _ => Nat.zero_le _)
      (Nat.zero_le _)]
  simp

/-! ## What the substitution depends on -/

/-- Only the order of the edits that start at one position matters. -/
theorem substitute_congr {edits' : List (Edit α)}
    (h : ∀ i, edits.filter (fun e => e.start = i) = edits'.filter fun e => e.start = i)
    (xs : List α) : substitute edits xs = substitute edits' xs := by
  have hmem (l l' : List (Edit α))
      (h : ∀ i, l.filter (fun e => e.start = i) = l'.filter fun e => e.start = i)
      (e : Edit α) (he : e ∈ l) : e ∈ l' := by
    have : e ∈ l'.filter fun e' => e'.start = e.start := by
      rw [← h]
      simp [he]
    exact List.mem_of_mem_filter this
  apply List.flatMap_congr
  intro i _
  have hcov : (∃ e ∈ edits, e.Covers i) ↔ ∃ e ∈ edits', e.Covers i := by
    constructor
    · rintro ⟨e, he, hc⟩
      exact ⟨e, hmem _ _ h e he, hc⟩
    · rintro ⟨e, he, hc⟩
      exact ⟨e, hmem _ _ (fun i => (h i).symm) e he, hc⟩
  simp only [piece, h i, hcov]

theorem substitute_map (f : α → β) (edits : List (Edit α)) (xs : List α) :
    (substitute edits xs).map f = substitute (edits.map (Edit.map f)) (xs.map f) := by
  rw [substitute, substitute, List.map_flatMap, List.length_map]
  apply List.flatMap_congr
  intro i _
  have hcov : (∃ e ∈ edits.map (Edit.map f), e.Covers i) ↔ ∃ e ∈ edits, e.Covers i := by
    simp only [List.mem_map, exists_exists_and_eq_and]
    rfl
  have hstart : ((edits.map (Edit.map f)).filter fun e => e.start = i) =
      (edits.filter fun e => e.start = i).map (Edit.map f) := by
    rw [List.filter_map]
    rfl
  simp only [piece, hcov, hstart, List.map_append, List.map_flatMap, List.flatMap_map]
  congr 1
  split_ifs
  · rfl
  · cases hx : xs[i]? <;> simp [hx]

/-! ## What follows an element that stays -/

/-- After the substitution something stands behind position `i`. -/
def Followed (edits : List (Edit α)) (n i : ℕ) : Prop :=
  (∃ j, i < j ∧ j < n ∧ ∀ e ∈ edits, ¬ e.Covers j) ∨ ∃ e ∈ edits, i < e.start ∧ e.new ≠ []

theorem piece_ne_nil_iff {j : ℕ} :
    piece edits xs j ≠ [] ↔
      (j < xs.length ∧ ∀ e ∈ edits, ¬ e.Covers j) ∨ ∃ e ∈ edits, e.start = j ∧ e.new ≠ [] := by
  have hnew : (edits.filter fun e => e.start = j).flatMap (·.new) ≠ [] ↔
      ∃ e ∈ edits, e.start = j ∧ e.new ≠ [] := by
    rw [Ne, List.flatMap_eq_nil_iff]
    simp
  have hkept : (if ∃ e ∈ edits, e.Covers j then [] else xs[j]?.toList) ≠ [] ↔
      j < xs.length ∧ ∀ e ∈ edits, ¬ e.Covers j := by
    split_ifs with hc
    · obtain ⟨e, he, hcov⟩ := hc
      constructor
      · intro h
        exact absurd rfl h
      · intro h
        exact absurd hcov (h.2 e he)
    · push Not at hc
      rcases lt_or_ge j xs.length with hj | hj
      · simpa [List.getElem?_eq_getElem hj, hj] using hc
      · simp [hj]
  rw [← hnew, ← hkept, piece, Ne, List.append_eq_nil_iff]
  tauto

/-- The pieces of all positions behind `i`. -/
theorem tail_ne_nil_iff (hs : ∀ e ∈ edits, e.start ≤ xs.length) (i : ℕ) :
    (List.range' (i + 1) (xs.length - i)).flatMap (piece edits xs) ≠ [] ↔
      Followed edits xs.length i := by
  rw [Ne, List.flatMap_eq_nil_iff]
  push Not
  constructor
  · rintro ⟨j, hj, hne⟩
    have hj' := List.mem_range'_1.mp hj
    rcases piece_ne_nil_iff.1 hne with ⟨hlt, hkept⟩ | ⟨e, he, hstart, hnew⟩
    · exact Or.inl ⟨j, by omega, hlt, hkept⟩
    · exact Or.inr ⟨e, he, by omega, hnew⟩
  · rintro (⟨j, hij, hjn, hkept⟩ | ⟨e, he, hstart, hnew⟩)
    · exact ⟨j, List.mem_range'_1.mpr (by omega), piece_ne_nil_iff.2 (Or.inl ⟨hjn, hkept⟩)⟩
    · have := hs e he
      exact ⟨e.start, List.mem_range'_1.mpr (by omega),
        piece_ne_nil_iff.2 (Or.inr ⟨e, he, rfl, hnew⟩)⟩

/-- A property of the new elements holds of all but the last when it holds of every element
that stays and is followed; over the positions from `m` on. -/
theorem forall_mem_dropLast_tail {P : α → Prop} (hnew : ∀ e ∈ edits, ∀ x ∈ e.new, P x)
    (m k : ℕ) :
    (∀ x ∈ ((List.range' m k).flatMap (piece edits xs)).dropLast, P x) ↔
      ∀ i ∈ List.range' m k, ∀ x, xs[i]? = some x → (∀ e ∈ edits, ¬ e.Covers i) →
        (List.range' (i + 1) (m + k - (i + 1))).flatMap (piece edits xs) ≠ [] → P x := by
  induction k generalizing m with
  | zero => simp
  | succ k ih =>
    have hnews : ∀ x ∈ (edits.filter fun e => e.start = m).flatMap (·.new), P x := by
      intro x hx
      obtain ⟨e, he, hx⟩ := List.mem_flatMap.mp hx
      exact hnew e (List.mem_of_mem_filter he) x hx
    have hpiece : (∀ x ∈ piece edits xs m, P x) ↔
        ∀ x, xs[m]? = some x → (∀ e ∈ edits, ¬ e.Covers m) → P x := by
      constructor
      · intro h x hx hk
        apply h
        have hnc : ¬ ∃ e ∈ edits, e.Covers m := fun ⟨e, he, hc⟩ => hk e he hc
        simp [piece, hnc, hx]
      · intro h x hx
        rcases List.mem_append.mp hx with hx | hx
        · exact hnews x hx
        · split_ifs at hx with hc
          · simp at hx
          · exact h x (by simpa using hx) fun e he hcov => hc ⟨e, he, hcov⟩
    have htail (i : ℕ) (hi : i ∈ List.range' (m + 1) k) :
        (List.range' (i + 1) (m + (k + 1) - (i + 1))) =
          List.range' (i + 1) (m + 1 + k - (i + 1)) := by
      rw [show m + (k + 1) = m + 1 + k by omega]
    rw [List.range'_succ, List.flatMap_cons]
    by_cases hT : (List.range' (m + 1) k).flatMap (piece edits xs) = []
    · rw [hT, List.append_nil]
      constructor
      · intro _ i hi x _ _ hne
        exfalso
        apply hne
        rw [List.flatMap_eq_nil_iff] at hT ⊢
        intro j hj
        apply hT
        have := List.mem_range'_1.mp hj
        rcases List.mem_cons.mp hi with rfl | hi
        · exact List.mem_range'_1.mpr (by omega)
        · have := List.mem_range'_1.mp hi
          exact List.mem_range'_1.mpr (by omega)
      · intro _ x hx
        -- the last element of the piece is dropped, the others are new
        apply hnews
        unfold piece at hx
        split_ifs at hx with hc
        · rw [List.append_nil] at hx
          exact List.dropLast_subset _ hx
        · cases hm : xs[m]? with
          | none =>
            rw [hm, Option.toList_none, List.append_nil] at hx
            exact List.dropLast_subset _ hx
          | some y =>
            rw [hm, Option.toList_some, List.dropLast_concat] at hx
            exact hx
    · rw [List.dropLast_append_of_ne_nil hT]
      simp only [List.mem_append, or_imp, forall_and, hpiece, ih (m + 1), List.mem_cons,
        forall_eq]
      constructor
      · rintro ⟨h1, h2⟩
        refine ⟨fun x hx hk _ => h1 x hx hk, fun i hi x hx hk hne => ?_⟩
        exact h2 i hi x hx hk (by rwa [htail i hi] at hne)
      · rintro ⟨h1, h2⟩
        refine ⟨fun x hx hk => h1 x hx hk ?_, fun i hi x hx hk hne => ?_⟩
        · rw [show m + (k + 1) - (m + 1) = k by omega]
          exact hT
        · exact h2 i hi x hx hk (by rwa [htail i hi])

theorem forall_mem_dropLast_substitute {P : α → Prop} (hnew : ∀ e ∈ edits, ∀ x ∈ e.new, P x)
    (hs : ∀ e ∈ edits, e.start ≤ xs.length) :
    (∀ x ∈ (substitute edits xs).dropLast, P x) ↔
      ∀ i x, xs[i]? = some x → (∀ e ∈ edits, ¬ e.Covers i) → Followed edits xs.length i → P x := by
  rw [substitute, List.range_eq_range', forall_mem_dropLast_tail hnew]
  have hi (i : ℕ) (x : α) (hx : xs[i]? = some x) : i < xs.length :=
    (List.getElem?_eq_some_iff.mp hx).1
  constructor
  · intro h i x hx hk hf
    have := hi i x hx
    refine h i (List.mem_range'_1.mpr (by omega)) x hx hk ?_
    rw [show 0 + (xs.length + 1) - (i + 1) = xs.length - i by omega]
    exact (tail_ne_nil_iff hs i).mpr hf
  · intro h i _ x hx hk hne
    apply h i x hx hk
    rw [show 0 + (xs.length + 1) - (i + 1) = xs.length - i by omega] at hne
    exact (tail_ne_nil_iff hs i).mp hne

/-! ## Where the new elements are -/

/-- The start of each edit in the list that the edits before it have produced. -/
def shiftedStarts : ℤ → List (Edit α) → List ℤ
  | _, [] => []
  | shift, e :: edits =>
    (e.start + shift) ::
      shiftedStarts (shift + ((e.new.length : ℤ) - ((e.stop : ℤ) - e.start))) edits

/-- Each edit's new elements stand in the result at its shifted start. -/
theorem weave_at_shiftedStart (hb : edits.Pairwise Edit.Before)
    (hf : ∀ e ∈ edits, e.Fits xs.length) (hp : ∀ e ∈ edits, p ≤ e.start) (shift : ℤ)
    {q : ℤ} (hq : (e, q) ∈ edits.zip (shiftedStarts shift edits)) :
    ∃ front back, weave xs p edits = front ++ e.new ++ back ∧
      (front.length : ℤ) = q - (p + shift) := by
  induction edits generalizing p shift with
  | nil => simp at hq
  | cons e₀ edits ih =>
    obtain ⟨hfirst, hrest⟩ := List.pairwise_cons.mp hb
    obtain ⟨hle, hbound⟩ := hf e₀ List.mem_cons_self
    have hpe := hp e₀ List.mem_cons_self
    have hlen : ((xs.drop p).take (e₀.start - p)).length = e₀.start - p := by
      rw [List.length_take, List.length_drop]
      omega
    rw [shiftedStarts, List.zip_cons_cons] at hq
    rcases List.mem_cons.mp hq with heq | hq
    · obtain ⟨rfl, rfl⟩ := Prod.mk.inj heq
      refine ⟨(xs.drop p).take (e.start - p), weave xs e.stop edits, rfl, ?_⟩
      rw [hlen]
      omega
    · obtain ⟨front, back, hw, hfront⟩ :=
        ih hrest (fun e' he' => hf e' (List.mem_cons_of_mem _ he')) hfirst _ hq
      refine ⟨(xs.drop p).take (e₀.start - p) ++ e₀.new ++ front, back, ?_, ?_⟩
      · rw [weave, hw]
        simp only [List.append_assoc]
      · simp only [List.length_append, hlen]
        omega

theorem substitute_at_shiftedStart (hb : edits.Pairwise Edit.Before)
    (hf : ∀ e ∈ edits, e.Fits xs.length) {q : ℤ}
    (hq : (e, q) ∈ edits.zip (shiftedStarts 0 edits)) :
    ∃ front back, substitute edits xs = front ++ e.new ++ back ∧ (front.length : ℤ) = q := by
  obtain ⟨front, back, hw, hlen⟩ :=
    weave_at_shiftedStart (p := 0) hb hf (fun _ _ => Nat.zero_le _) 0 hq
  refine ⟨front, back, ?_, by omega⟩
  rw [← foldr_splice_eq_substitute hb hf,
    foldr_splice_eq_weave hb hf (fun _ _ => Nat.zero_le _) (Nat.zero_le _), hw]
  simp

end GrokBuild.Substitution
