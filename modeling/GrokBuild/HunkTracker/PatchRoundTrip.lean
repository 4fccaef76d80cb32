import GrokBuild.HunkTracker.Blocks

/-!
# Rejecting and accepting every hunk

`compute_hunks` numbers the lines of the diff library, which keep their terminators;
`patch_lines` numbers the lines of `str::lines` and joins them with `\n`. Where the two
numberings agree, reverting the blocks of a script gives the old text with its line ends
normalized. From that follows when the round trip is exact.
-/

namespace GrokBuild.HunkTracker

open Text

/-! ## Lines that keep their terminator -/

def Terminated (v : Str) : Prop := ∃ x, '\n' ∉ x ∧ v = x ++ ['\n']

/-- A line of the diff library: not empty, and a `\n` only at its end. -/
def IsToken (v : Str) : Prop := v ≠ [] ∧ '\n' ∉ v.dropLast

theorem IsToken.terminated {v : Str} (h : IsToken v) (he : endsNl v = true) : Terminated v := by
  refine ⟨v.dropLast, h.2, ?_⟩
  have hl : v.getLast? = some '\n' := by simpa [endsNl] using he
  exact (List.dropLast_append_getLast? '\n' hl).symm

theorem Terminated.isToken {v : Str} (h : Terminated v) : IsToken v := by
  obtain ⟨x, hx, rfl⟩ := h
  exact ⟨by simp, by simpa using hx⟩

theorem lines_flatten_append {A : List Str} (hA : ∀ v ∈ A, Terminated v) (s : Str) :
    lines (A.flatten ++ s) = A.map chompLine ++ lines s := by
  induction A with
  | nil => simp
  | cons v A ih =>
    obtain ⟨x, hx, rfl⟩ := hA v (by simp)
    have ih' := ih fun v hv => hA v (by simp [hv])
    have hsplit : (((x ++ ['\n']) :: A).flatten ++ s) = x ++ '\n' :: (A.flatten ++ s) := by simp
    rw [hsplit, lines_line hx, ih']
    simp [chompLine_terminated]

theorem lines_flatten {A : List Str} (hA : ∀ v ∈ A, Terminated v) :
    lines A.flatten = A.map chompLine := by
  simpa using lines_flatten_append hA []

theorem chompsOnce_flatten_append {A : List Str} (hA : ∀ v ∈ A, Terminated v) (s : Str) :
    ChompsOnce (A.flatten ++ s) ↔
      (∀ v ∈ A, (chompLine v).getLast? ≠ some '\r') ∧ ChompsOnce s := by
  induction A with
  | nil => simp
  | cons v A ih =>
    obtain ⟨x, hx, rfl⟩ := hA v (by simp)
    have ih' := ih fun v hv => hA v (by simp [hv])
    have hsplit : (((x ++ ['\n']) :: A).flatten ++ s) = x ++ '\n' :: (A.flatten ++ s) := by simp
    rw [hsplit, chompsOnce_line hx, ih', List.forall_mem_cons, chompLine_terminated, and_assoc]

/-- A line of the diff library adds at most one line of `str::lines`. -/
theorem length_lines_token_append {v : Str} (hv : IsToken v) (s : Str) :
    (lines (v ++ s)).length ≤ (lines s).length + 1 := by
  by_cases he : endsNl v = true
  · obtain ⟨x, hx, rfl⟩ := hv.terminated he
    rw [List.append_assoc, List.singleton_append, lines_line hx]
    simp
  · have hn : '\n' ∉ v := by
      intro hm
      rw [← List.dropLast_append_getLast hv.1, List.mem_append, List.mem_singleton] at hm
      rcases hm with hm | hm
      · exact hv.2 hm
      · exact he (by simp [endsNl, List.getLast?_eq_some_getLast hv.1, ← hm])
    induction s using line_induction with
    | nil => simp [lines_last hn hv.1]
    | last x hx hxn =>
      have hvx : '\n' ∉ v ++ x := by simp [hn, hx]
      rw [lines_last hvx (by simp [hv.1])]
      simp
    | line x s hx _ =>
      have hvx : '\n' ∉ v ++ x := by simp [hn, hx]
      rw [← List.append_assoc, lines_line hvx, lines_line hx]
      simp

theorem length_lines_tokens {N : List Str} (hN : ∀ v ∈ N, IsToken v) :
    (lines N.flatten).length ≤ N.length := by
  induction N with
  | nil => simp
  | cons v N ih =>
    rw [List.flatten_cons, List.length_cons]
    have h1 := length_lines_token_append (hN v (by simp)) N.flatten
    have h2 := ih fun v hv => hN v (by simp [hv])
    omega

/-- One `patch_lines` on a text of the form `A N Z`: the lines `N` are replaced by `O`. -/
theorem patchLines_block {content : Str} {A N O : List Str} {Z : Str}
    (hA : ∀ v ∈ A, Terminated v)
    (hN : (∀ v ∈ N, Terminated v) ∨ (Z = [] ∧ ∀ v ∈ N, IsToken v))
    (hO : (∀ v ∈ O, Terminated v) ∨ Z = [])
    (hc : lines content = lines (A.flatten ++ (N.flatten ++ Z))) :
    patchLines content (A.length + 1) N.length O.flatten =
      rebuild (lines (A.flatten ++ (O.flatten ++ Z))) (endsNl content) := by
  have hins : (if O.flatten.isEmpty then [] else lines O.flatten) = lines O.flatten := by
    by_cases h : O.flatten = []
    · simp [h]
    · rw [if_neg (by simpa using h)]
  have hdrop : (lines (N.flatten ++ Z)).drop N.length = lines Z := by
    rcases hN with hN | ⟨rfl, hN⟩
    · rw [lines_flatten_append hN, List.drop_left' (by simp)]
    · rw [List.append_nil, List.drop_eq_nil_of_le (length_lines_tokens hN)]
      rfl
  have hOZ : lines (O.flatten ++ Z) = lines O.flatten ++ lines Z := by
    rcases hO with hO | rfl
    · rw [lines_flatten_append hO, lines_flatten hO]
    · simp
  have hbefore : (lines content).take (min A.length (lines content).length) = A.map chompLine := by
    rw [hc, lines_flatten_append hA, List.take_left' (by simp)]
  have hafter : (lines content).drop (min (A.length + N.length) (lines content).length) =
      lines Z := by
    rw [← List.drop_eq_drop_min, hc, lines_flatten_append hA, ← List.drop_drop,
      List.drop_left' (by simp), hdrop]
  unfold patchLines
  simp only [Nat.add_sub_cancel, hins]
  rw [hbefore, hafter, lines_flatten_append hA, hOZ, List.append_assoc]

/-! ## Reverting the blocks -/

/-- The lines of the diff library are lines of `str::lines` up to the last block; a last
block that reaches the end of the file may hold lone carriage returns. -/
def Laid : List Block → List Str → Prop
  | [], _ => True
  | b :: bs, tail =>
    (∀ v ∈ b.keep, Terminated v) ∧
    ((∀ v ∈ b.del ++ b.ins, Terminated v) ∨
      (bs = [] ∧ tail = [] ∧ ∀ v ∈ b.del ++ b.ins, IsToken v)) ∧
    Laid bs tail

def oldText (bs : List Block) (tail : List Str) : Str := (blocksOld bs ++ tail).flatten

def newText (bs : List Block) (tail : List Str) : Str := (blocksNew bs ++ tail).flatten

@[simp] theorem oldText_cons (b : Block) (bs : List Block) (tail : List Str) :
    oldText (b :: bs) tail = b.keep.flatten ++ (b.del.flatten ++ oldText bs tail) := by
  simp [oldText]

@[simp] theorem newText_cons (b : Block) (bs : List Block) (tail : List Str) :
    newText (b :: bs) tail = b.keep.flatten ++ (b.ins.flatten ++ newText bs tail) := by
  simp [newText]

theorem flatten_ne_nil {A : List Str} (hA : ∀ v ∈ A, Terminated v) (h : A ≠ []) :
    A.flatten ≠ [] := by
  obtain ⟨v, A', rfl⟩ := List.exists_cons_of_ne_nil h
  have hv := (hA v (by simp)).isToken.1
  simp [hv]

/-- Below the first block there is always a kept line. -/
theorem oldText_ne_nil {bs : List Block} {tail : List Str} (hl : Laid bs tail) (hne : bs ≠ [])
    (hk : ∀ b ∈ bs, b.keep ≠ []) : oldText bs tail ≠ [] := by
  obtain ⟨b, bs', rfl⟩ := List.exists_cons_of_ne_nil hne
  have hb := flatten_ne_nil hl.1 (hk b (by simp))
  simp [hb]

/-- The block lemma for the first of several blocks, when the rest has been reverted. -/
theorem patchLines_first {b : Block} {bs : List Block} {tail A : List Str} {content : Str}
    (hA : ∀ v ∈ A, Terminated v) (hl : Laid (b :: bs) tail)
    (hc : lines content =
      lines (A.flatten ++ (b.keep.flatten ++ (b.ins.flatten ++ oldText bs tail)))) :
    patchLines content (A.length + 1 + b.keep.length) b.ins.length b.del.flatten =
      rebuild (lines (A.flatten ++ oldText (b :: bs) tail)) (endsNl content) := by
  obtain ⟨hkeep, hch, -⟩ := hl
  have hAk : ∀ v ∈ A ++ b.keep, Terminated v := by
    intro v hv
    rcases List.mem_append.mp hv with hv | hv
    · exact hA v hv
    · exact hkeep v hv
  have hN : (∀ v ∈ b.ins, Terminated v) ∨ (oldText bs tail = [] ∧ ∀ v ∈ b.ins, IsToken v) := by
    rcases hch with h | ⟨rfl, rfl, h⟩
    · exact Or.inl fun v hv => h v (List.mem_append_right _ hv)
    · exact Or.inr ⟨rfl, fun v hv => h v (List.mem_append_right _ hv)⟩
  have hO : (∀ v ∈ b.del, Terminated v) ∨ oldText bs tail = [] := by
    rcases hch with h | ⟨rfl, rfl, -⟩
    · exact Or.inl fun v hv => h v (List.mem_append_left _ hv)
    · exact Or.inr rfl
  have hstart : A.length + 1 + b.keep.length = (A ++ b.keep).length + 1 := by
    rw [List.length_append]
    omega
  have hc' : lines content =
      lines ((A ++ b.keep).flatten ++ (b.ins.flatten ++ oldText bs tail)) := by
    simpa using hc
  rw [hstart, patchLines_block hAk hN hO hc']
  simp

theorem Laid.change_terminated {b : Block} {bs : List Block} {tail : List Str}
    (hl : Laid (b :: bs) tail) (hbs : bs ≠ []) :
    (∀ v ∈ b.del, Terminated v) ∧ (∀ v ∈ b.ins, Terminated v) := by
  have h := hl.2.1.resolve_right fun h => hbs h.1
  exact ⟨fun v hv => h v (List.mem_append_left _ hv), fun v hv => h v (List.mem_append_right _ hv)⟩

theorem Laid.prefix_terminated {b : Block} {bs : List Block} {tail A : List Str}
    (hl : Laid (b :: bs) tail) (hbs : bs ≠ []) (hA : ∀ v ∈ A, Terminated v) :
    (∀ v ∈ A ++ b.keep ++ b.del, Terminated v) ∧ (∀ v ∈ A ++ b.keep ++ b.ins, Terminated v) := by
  obtain ⟨hdel, hins⟩ := hl.change_terminated hbs
  have hkeep := hl.1
  constructor
  · intro v hv
    simp only [List.mem_append] at hv
    rcases hv with (hv | hv) | hv
    · exact hA v hv
    · exact hkeep v hv
    · exact hdel v hv
  · intro v hv
    simp only [List.mem_append] at hv
    rcases hv with (hv | hv) | hv
    · exact hA v hv
    · exact hkeep v hv
    · exact hins v hv

/-- A kept line above and something below are never a single line. -/
theorem lines_ne_single {bs : List Block} {tail A : List Str} (hA : ∀ v ∈ A, Terminated v)
    (hl : Laid bs tail) (hk : ∀ b ∈ bs, b.keep ≠ []) (b : Block) (rest : List Block)
    (hbs : bs = b :: rest) (hr : rest ≠ []) :
    lines (A.flatten ++ (b.keep.flatten ++ (b.ins.flatten ++ oldText rest tail))) ≠ [[]] := by
  subst hbs
  intro heq
  have hbelow : b.ins.flatten ++ oldText rest tail ≠ [] := by
    have := oldText_ne_nil hl.2.2 hr fun x hx => hk x (by simp [hx])
    simp [this]
  have hlen := congrArg List.length heq
  rw [lines_flatten_append hA, lines_flatten_append hl.1] at hlen
  have h1 := List.length_pos_iff.mpr (lines_ne_nil hbelow)
  have h2 := List.length_pos_iff.mpr (hk b (by simp))
  simp only [List.length_append, List.length_map, List.length_singleton] at hlen
  omega

/-- Reverting all blocks gives the old text with its line ends normalized, when both texts
agree on a final newline and the only line left is never an empty one. -/
theorem revert_eq_normalize {bs : List Block} {tail : List Str} (A : List Str)
    (hA : ∀ v ∈ A, Terminated v) (hs : Separated bs) (hl : Laid bs tail) (hne : bs ≠ [])
    (hone : ∀ b rest, bs = b :: rest → rest ≠ [] →
      lines (A.flatten ++ (b.keep.flatten ++ (b.ins.flatten ++ oldText rest tail))) ≠ [[]])
    (he : endsNl (A.flatten ++ newText bs tail) = endsNl (A.flatten ++ oldText bs tail))
    (hcN : ChompsOnce (A.flatten ++ newText bs tail))
    (hcO : ChompsOnce (A.flatten ++ oldText bs tail)) :
    revert (A.length + 1) bs (A.flatten ++ newText bs tail) =
      normalize (A.flatten ++ oldText bs tail) := by
  induction bs generalizing A with
  | nil => contradiction
  | cons b bs ih =>
    obtain ⟨-, hk, hs'⟩ := hs
    by_cases hbs : bs = []
    · subst hbs
      rw [revert, revert, patchLines_first hA hl (by simp [oldText, newText]), he]
      rfl
    · obtain ⟨hAd, hAi⟩ := hl.prefix_terminated hbs hA
      have hZ := oldText_ne_nil hl.2.2 hbs hk
      have hnew : (A ++ b.keep ++ b.ins).flatten ++ newText bs tail =
          A.flatten ++ newText (b :: bs) tail := by simp
      have hold : (A ++ b.keep ++ b.del).flatten ++ oldText bs tail =
          A.flatten ++ oldText (b :: bs) tail := by simp
      have hmix : (A ++ b.keep ++ b.ins).flatten ++ oldText bs tail =
          A.flatten ++ (b.keep.flatten ++ (b.ins.flatten ++ oldText bs tail)) := by simp
      have hend : endsNl ((A ++ b.keep ++ b.ins).flatten ++ oldText bs tail) =
          endsNl (A.flatten ++ oldText (b :: bs) tail) := by
        rw [← hold, endsNl_append_of_ne_nil _ hZ, endsNl_append_of_ne_nil _ hZ]
      have honce : ChompsOnce ((A ++ b.keep ++ b.ins).flatten ++ oldText bs tail) := by
        rw [← hnew, chompsOnce_flatten_append hAi] at hcN
        rw [← hold, chompsOnce_flatten_append hAd] at hcO
        exact (chompsOnce_flatten_append hAi _).mpr ⟨hcN.1, hcO.2⟩
      have hrest : revert ((A ++ b.keep ++ b.ins).length + 1) bs
          ((A ++ b.keep ++ b.ins).flatten ++ newText bs tail) =
          normalize ((A ++ b.keep ++ b.ins).flatten ++ oldText bs tail) := by
        apply ih _ hAi hs' hl.2.2 hbs
        · exact lines_ne_single hAi hl.2.2 hk
        · rw [hnew, he, hend]
        · rwa [hnew]
        · exact honce
      have hnorm := lines_normalize honce fun h => hone b bs rfl hbs (by rw [← hmix]; exact h.2)
      rw [hnew] at hrest
      have hlen : (A ++ b.keep ++ b.ins).length + 1 =
          A.length + 1 + b.keep.length + b.ins.length := by
        simp only [List.length_append]
        omega
      rw [hlen] at hrest
      rw [revert, hrest, patchLines_first hA hl (by rw [hnorm.1, hmix]), hnorm.2, hend]
      rfl

/-! ## What is lost otherwise -/

/-- A text with at most `n` lines, and fewer if it ends in a newline. -/
def Short (t : Str) (n : ℕ) : Prop :=
  (endsNl t = false ∧ (lines t).length ≤ n) ∨ (endsNl t = true ∧ (lines t).length < n)

theorem rebuild_short {ls : List Str} (h : ∀ l ∈ ls, '\n' ∉ l) {nl : Bool} {n : ℕ}
    (hn : ls.length + (if nl then 1 else 0) ≤ n) : Short (rebuild ls nl) n := by
  rcases length_lines_rebuild h nl with ⟨he, hle⟩ | ⟨he, hle⟩
  · left
    refine ⟨he, ?_⟩
    omega
  · right
    refine ⟨he, ?_⟩
    cases nl with
    | true =>
      simp only [if_true] at hn hle
      omega
    | false =>
      simp only [Bool.false_eq_true, if_false] at hn hle
      omega

/-- A patch above the last line of a short text leaves it short. -/
theorem patchLines_short {content text : Str} {i r n m : ℕ} (h : Short content n)
    (hroom : i + r < n) (hm : m + r = n + (lines text).length) :
    Short (patchLines content (i + 1) r text) m := by
  have hins : (if text.isEmpty then [] else lines text) = lines text := by
    by_cases ht : text = []
    · simp [ht]
    · rw [if_neg (by simpa using ht)]
  unfold patchLines
  simp only [Nat.add_sub_cancel, hins]
  apply rebuild_short
  · intro l hl
    simp only [List.mem_append] at hl
    rcases hl with (hl | hl) | hl
    · exact newline_not_mem_of_mem_lines (List.mem_of_mem_take hl)
    · exact newline_not_mem_of_mem_lines hl
    · exact newline_not_mem_of_mem_lines (List.mem_of_mem_drop hl)
  · simp only [List.length_append, List.length_take, List.length_drop]
    rcases h with ⟨he, hle⟩ | ⟨he, hlt⟩
    · simp only [he, Bool.false_eq_true, if_false]
      omega
    · simp only [he, if_true]
      omega

/-- Reverting towards a text with a final newline from one without it comes out short. -/
theorem revert_short {bs : List Block} {tail : List Str} (A : List Str)
    (hA : ∀ v ∈ A, Terminated v) (hs : Separated bs) (hl : Laid bs tail) (hne : bs ≠ [])
    (hN : endsNl (A.flatten ++ newText bs tail) = false)
    (hO : endsNl (A.flatten ++ oldText bs tail) = true) :
    Short (revert (A.length + 1) bs (A.flatten ++ newText bs tail))
      (lines (A.flatten ++ oldText bs tail)).length := by
  induction bs generalizing A with
  | nil => contradiction
  | cons b bs ih =>
    obtain ⟨-, hk, hs'⟩ := hs
    by_cases hbs : bs = []
    · subst hbs
      rw [revert, revert, patchLines_first hA hl (by simp [oldText, newText]), hN]
      exact rebuild_short (fun _ => newline_not_mem_of_mem_lines) (by simp)
    · obtain ⟨hAd, hAi⟩ := hl.prefix_terminated hbs hA
      have hZ := oldText_ne_nil hl.2.2 hbs hk
      have hnew : (A ++ b.keep ++ b.ins).flatten ++ newText bs tail =
          A.flatten ++ newText (b :: bs) tail := by simp
      have hold : (A ++ b.keep ++ b.del).flatten ++ oldText bs tail =
          A.flatten ++ oldText (b :: bs) tail := by simp
      have hrest := ih _ hAi hs' hl.2.2 hbs (by rwa [hnew])
        (by rwa [endsNl_append_of_ne_nil _ hZ, ← endsNl_append_of_ne_nil
          (A ++ b.keep ++ b.del).flatten hZ, hold])
      rw [hnew, lines_flatten_append hAi] at hrest
      have hlen : (A ++ b.keep ++ b.ins).length + 1 =
          A.length + 1 + b.keep.length + b.ins.length := by
        simp only [List.length_append]
        omega
      rw [hlen] at hrest
      have hpos := List.length_pos_iff.mpr (lines_ne_nil hZ)
      have hstart : A.length + 1 + b.keep.length = A.length + b.keep.length + 1 := by omega
      rw [revert, hstart, ← hold, lines_flatten_append hAd]
      apply patchLines_short (by rwa [hstart] at hrest)
      · simp only [List.length_append, List.length_map]
        omega
      · rw [lines_flatten (hl.change_terminated hbs).1]
        simp only [List.length_append, List.length_map]
        omega

theorem revert_ne_of_ends {bs : List Block} {tail : List Str} (hs : Separated bs)
    (hl : Laid bs tail) (hne : bs ≠ []) (hN : endsNl (newText bs tail) = false)
    (hO : endsNl (oldText bs tail) = true) :
    revert 1 bs (newText bs tail) ≠ oldText bs tail := by
  have h := revert_short [] (by simp) hs hl hne hN hO
  intro heq
  simp only [List.flatten_nil, List.nil_append, List.length_nil, Nat.zero_add] at h
  rw [heq] at h
  rcases h with ⟨he, -⟩ | ⟨-, hlt⟩
  · rw [hO] at he
    contradiction
  · exact lt_irrefl _ hlt

/-- When reverting the blocks below the first leaves a single empty line, that line is
lost. -/
theorem revert_ne_of_single {b : Block} {bs : List Block} {tail : List Str}
    (hs : Separated (b :: bs)) (hl : Laid (b :: bs) tail) (hbs : bs ≠ [])
    (he : endsNl (newText (b :: bs) tail) = endsNl (oldText (b :: bs) tail))
    (hcN : ChompsOnce (newText (b :: bs) tail)) (hcO : ChompsOnce (oldText (b :: bs) tail))
    (hone : lines (b.keep.flatten ++ (b.ins.flatten ++ oldText bs tail)) = [[]]) :
    revert 1 (b :: bs) (newText (b :: bs) tail) ≠ oldText (b :: bs) tail := by
  obtain ⟨-, hk, hs'⟩ := hs
  obtain ⟨hdel, hins⟩ := hl.change_terminated hbs
  have hZ := oldText_ne_nil hl.2.2 hbs hk
  have hpos := List.length_pos_iff.mpr (lines_ne_nil hZ)
  have hlen := congrArg List.length hone
  rw [lines_flatten_append hl.1, lines_flatten_append hins] at hlen
  simp only [List.length_append, List.length_map, List.length_singleton] at hlen
  have hkeep : b.keep = [] := List.eq_nil_of_length_eq_zero (by omega)
  have hi : b.ins = [] := List.eq_nil_of_length_eq_zero (by omega)
  simp only [newText_cons, oldText_cons, hkeep, hi, List.flatten_nil, List.nil_append]
    at hone he hcN hcO ⊢
  -- the blocks below leave the empty line, and joining it again gives the empty text
  have hbelow : revert 1 bs (newText bs tail) = normalize (oldText bs tail) := by
    have h := revert_eq_normalize [] (by simp) hs' hl.2.2 hbs
      (lines_ne_single (by simp) hl.2.2 hk)
    simp only [List.flatten_nil, List.nil_append, List.length_nil, Nat.zero_add] at h
    apply h _ hcN ((chompsOnce_flatten_append hdel _).mp hcO).2
    rw [he, endsNl_append_of_ne_nil _ hZ]
  have hempty : normalize (oldText bs tail) = [] := by
    unfold Text.normalize
    rw [hone]
    cases endsNl (oldText bs tail) <;> rfl
  have hR : revert 1 (b :: bs) (newText bs tail) = rebuild (lines b.del.flatten) false := by
    rw [revert, hkeep, hi, List.length_nil, Nat.add_zero, hbelow, hempty]
    by_cases hd : b.del.flatten = []
    · simp [hd, patchLines, endsNl]
    · simp [patchLines, endsNl, hd]
  intro heq
  have hshort : Short (oldText (b :: bs) tail) b.del.length := by
    have hsh : Short (rebuild (lines b.del.flatten) false) b.del.length := by
      apply rebuild_short
      · intro l hm
        exact newline_not_mem_of_mem_lines hm
      · rw [lines_flatten hdel]
        simp
    rw [← hR, heq] at hsh
    simpa [hkeep] using hsh
  have hle : (lines (oldText (b :: bs) tail)).length ≤ b.del.length := by
    rcases hshort with h | h
    · exact h.2
    · exact h.2.le
  simp only [oldText_cons, hkeep, List.flatten_nil, List.nil_append] at hle
  rw [lines_flatten_append hdel, List.length_append, List.length_map] at hle
  omega

end GrokBuild.HunkTracker
