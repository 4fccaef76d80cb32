import GrokBuild.HunkTracker.PatchRoundTrip

/-!
# The round trip over a line edit script

The diff library is a parameter that returns a line edit script. From the script follow the
blocks of the previous module; the conditions under which rejecting or accepting every hunk
is exact are stated on the two texts and the script.
-/

namespace GrokBuild.HunkTracker

open Text

/-! ## Scripts of the diff library -/

/-- The script is a line edit script between the two texts. -/
structure ValidScript (baseline current : Str) (script : List Change) : Prop where
  old : oldTokens script = tokenizeLines baseline
  new : newTokens script = tokenizeLines current

/-- Every line that still has both a kept and a changed line at or after it ends in `\n`:
no line of the diff library ends in a lone `\r` up to the last hunk, except in a last hunk
that reaches the end of the file. -/
def LinesAgree : List Change → Prop
  | [] => True
  | change :: script =>
    ((∃ c ∈ change :: script, c.tag = .equal) → (∃ c ∈ change :: script, c.tag ≠ .equal) →
      endsNl change.value = true) ∧
    LinesAgree script

theorem flatten_tokenizeLines (s : Str) : (tokenizeLines s).flatten = s := by
  induction s with
  | nil => rfl
  | cons c s ih =>
    unfold tokenizeLines
    by_cases hc : c = '\n' ∨ (c = '\r' ∧ s.head? ≠ some '\n')
    · simp [hc, ih]
    · rw [if_neg hc]
      cases ht : tokenizeLines s with
      | nil =>
        rw [ht] at ih
        simp [← ih]
      | cons v vs =>
        rw [ht] at ih
        simp [← ih]

theorem isToken_of_mem_tokenizeLines {s v : Str} (h : v ∈ tokenizeLines s) : IsToken v := by
  induction s generalizing v with
  | nil => simp [tokenizeLines] at h
  | cons c s ih =>
    unfold tokenizeLines at h
    by_cases hc : c = '\n' ∨ (c = '\r' ∧ s.head? ≠ some '\n')
    · rw [if_pos hc, List.mem_cons] at h
      rcases h with rfl | h
      · exact ⟨by simp, by simp⟩
      · exact ih h
    · rw [if_neg hc] at h
      have hcn : c ≠ '\n' := fun hn => hc (Or.inl hn)
      cases ht : tokenizeLines s with
      | nil =>
        rw [ht, List.mem_singleton] at h
        rw [h]
        exact ⟨by simp, by simp⟩
      | cons w vs =>
        rw [ht, List.mem_cons] at h
        rcases h with rfl | h
        · obtain ⟨hw, hwn⟩ := ih (v := w) (by simp [ht])
          refine ⟨by simp, ?_⟩
          rw [List.dropLast_cons_of_ne_nil hw]
          simp [Ne.symm hcn, hwn]
        · exact ih (by simp [ht, h])

theorem value_mem_tokens {script : List Change} {change : Change} (h : change ∈ script) :
    change.value ∈ oldTokens script ∨ change.value ∈ newTokens script := by
  induction script with
  | nil => simp at h
  | cons c script ih =>
    obtain ⟨tag, v⟩ := c
    rcases List.mem_cons.mp h with rfl | hm
    · cases tag <;> simp [oldTokens, newTokens]
    · cases tag <;> rcases ih hm with hv | hv <;> simp [oldTokens, newTokens, hv]

theorem ValidScript.isToken {b c : Str} {script : List Change} (hv : ValidScript b c script)
    {change : Change} (h : change ∈ script) : IsToken change.value := by
  rcases value_mem_tokens h with h | h
  · rw [hv.old] at h
    exact isToken_of_mem_tokenizeLines h
  · rw [hv.new] at h
    exact isToken_of_mem_tokenizeLines h

theorem exists_changed_iff (script : List Change) :
    (∃ c ∈ script, c.tag ≠ .equal) ↔ (blocksOf script).1 ≠ [] := by
  induction script with
  | nil => simp
  | cons change script ih =>
    rw [blocksOf_cons]
    obtain ⟨tag, v⟩ := change
    generalize blocksOf script = B at ih ⊢
    obtain ⟨bs, tail⟩ := B
    cases bs with
    | nil => cases tag <;> simp_all [consBlock]
    | cons b bs =>
      by_cases hb : b.keep = []
      · cases tag <;> simp_all [consBlock]
      · cases tag <;> simp_all [consBlock]

/-- Without a kept line there is at most one block and no tail. -/
theorem blocksOf_of_no_kept {script : List Change} (h : ∀ c ∈ script, c.tag ≠ .equal) :
    (blocksOf script).2 = [] ∧
      ((blocksOf script).1 = [] ∨ ∃ b, (blocksOf script).1 = [b] ∧ b.keep = []) := by
  induction script with
  | nil => simp
  | cons change script ih =>
    rw [blocksOf_cons]
    have ih' := ih fun c hc => h c (by simp [hc])
    have ht := h change (by simp)
    obtain ⟨tag, v⟩ := change
    generalize blocksOf script = B at ih' ⊢
    obtain ⟨bs, tail⟩ := B
    obtain ⟨htail, hbs | ⟨b, hbs, hk⟩⟩ := ih'
    · simp only at htail hbs
      subst htail hbs
      cases tag with
      | equal => contradiction
      | delete => exact ⟨rfl, Or.inr ⟨_, rfl, rfl⟩⟩
      | insert => exact ⟨rfl, Or.inr ⟨_, rfl, rfl⟩⟩
    · simp only at htail hbs
      subst htail hbs
      cases tag with
      | equal => contradiction
      | delete => simp [consBlock, hk]
      | insert => simp [consBlock, hk]

theorem exists_kept {script : List Change} {bs : List Block} {tail : List Str}
    (hB : blocksOf script = (bs, tail))
    (h : tail ≠ [] ∨ 1 < bs.length ∨ ∃ b ∈ bs, b.keep ≠ []) :
    ∃ c ∈ script, c.tag = .equal := by
  by_contra hno
  have hnone : ∀ c ∈ script, c.tag ≠ .equal := fun c hc he => hno ⟨c, hc, he⟩
  obtain ⟨htail, hbs⟩ := blocksOf_of_no_kept hnone
  rw [hB] at htail hbs
  rcases hbs with hbs | ⟨b, hbs, hk⟩
  · simp_all
  · simp_all

/-- A changed line in front of laid blocks, in a block of its own. -/
theorem laid_new_block {v : Str} (hv : IsToken v) {b : Block} (hb : b.keep = [])
    (hd : b.del ++ b.ins = [v]) {bs : List Block} {tail : List Str} (hl : Laid bs tail)
    (hterm : bs ≠ [] ∨ tail ≠ [] → Terminated v) : Laid (b :: bs) tail := by
  refine ⟨by simp [hb], ?_, hl⟩
  rw [hd]
  by_cases h : bs = [] ∧ tail = []
  · right
    exact ⟨h.1, h.2, by simpa using hv⟩
  · left
    have ht : Terminated v := by
      apply hterm
      by_cases hbs : bs = []
      · exact Or.inr fun htail => h ⟨hbs, htail⟩
      · exact Or.inl hbs
    simpa using ht

/-- A changed line in front of laid blocks, in the first of them. -/
theorem laid_same_block {v : Str} (hv : IsToken v) {b b' : Block} {bs : List Block}
    {tail : List Str} (hl : Laid (b :: bs) tail) (hk : b'.keep = b.keep)
    (hd : ∀ w ∈ b'.del ++ b'.ins, w = v ∨ w ∈ b.del ++ b.ins)
    (hterm : bs ≠ [] ∨ tail ≠ [] → Terminated v) : Laid (b' :: bs) tail := by
  obtain ⟨hkeep, hch, hrest⟩ := hl
  refine ⟨by rwa [hk], ?_, hrest⟩
  by_cases h : bs = [] ∧ tail = []
  · right
    refine ⟨h.1, h.2, ?_⟩
    intro w hw
    rcases hd w hw with rfl | hw
    · exact hv
    · rcases hch with hch | ⟨-, -, hch⟩
      · exact (hch w hw).isToken
      · exact hch w hw
  · left
    have ht : Terminated v := by
      apply hterm
      by_cases hbs : bs = []
      · exact Or.inr fun htail => h ⟨hbs, htail⟩
      · exact Or.inl hbs
    intro w hw
    rcases hd w hw with rfl | hw
    · exact ht
    · exact hch.resolve_right (fun hc => h ⟨hc.1, hc.2.1⟩) w hw

theorem laid_of_linesAgree {script : List Change} (ht : ∀ change ∈ script, IsToken change.value)
    (hl : LinesAgree script) : Laid (blocksOf script).1 (blocksOf script).2 := by
  induction script with
  | nil => trivial
  | cons change script ih =>
    obtain ⟨hhead, hrest⟩ := hl
    have hlaid := ih (fun c hc => ht c (by simp [hc])) hrest
    have hv := ht change (by simp)
    have hchanged := exists_changed_iff script
    obtain ⟨tag, v⟩ := change
    -- a changed line is terminated unless nothing is kept from it on
    have hterm : tag ≠ .equal → (∃ c ∈ script, c.tag = .equal) → Terminated v := by
      intro htag hk
      apply hv.terminated
      obtain ⟨c, hc, hce⟩ := hk
      exact hhead ⟨c, by simp [hc], hce⟩ ⟨_, List.mem_cons_self, htag⟩
    rw [blocksOf_cons]
    cases hB : blocksOf script with
    | mk bs tail =>
      rw [hB] at hlaid hchanged
      have hkept := exists_kept hB
      cases bs with
      | nil =>
        cases tag with
        | equal => trivial
        | delete =>
          exact laid_new_block hv rfl rfl hlaid fun h =>
            hterm (by simp) (hkept (Or.inl (h.resolve_left (by simp))))
        | insert =>
          exact laid_new_block hv rfl rfl hlaid fun h =>
            hterm (by simp) (hkept (Or.inl (h.resolve_left (by simp))))
      | cons b bs =>
        have hmore : bs ≠ [] ∨ tail ≠ [] → ∃ c ∈ script, c.tag = .equal := by
          intro h
          rcases h with h | h
          · exact hkept (Or.inr (Or.inl (by simpa [List.length_pos_iff] using h)))
          · exact hkept (Or.inl h)
        cases tag with
        | equal =>
          obtain ⟨c, hc, hce⟩ := hchanged.mpr (by simp)
          have hvt : Terminated v :=
            hv.terminated (hhead ⟨_, List.mem_cons_self, rfl⟩ ⟨c, by simp [hc], hce⟩)
          obtain ⟨hkeep, hch, hlr⟩ := hlaid
          refine ⟨?_, hch, hlr⟩
          simpa [hvt] using hkeep
        | delete =>
          by_cases hb : b.keep = []
          · simp only [consBlock, hb, if_true]
            exact laid_same_block hv hlaid hb.symm (by simp)
              fun h => hterm (by simp) (hmore h)
          · simp only [consBlock, hb, if_false]
            exact laid_new_block hv rfl rfl hlaid fun _ =>
              hterm (by simp) (hkept (Or.inr (Or.inr ⟨b, by simp, hb⟩)))
        | insert =>
          by_cases hb : b.keep = []
          · simp only [consBlock, hb, if_true]
            refine laid_same_block hv hlaid hb.symm ?_ fun h => hterm (by simp) (hmore h)
            intro w hw
            simp only [List.mem_append, List.mem_cons] at hw ⊢
            rcases hw with hw | hw | hw
            · exact Or.inr (Or.inl hw)
            · exact Or.inl hw
            · exact Or.inr (Or.inr hw)
          · simp only [consBlock, hb, if_false]
            exact laid_new_block hv rfl rfl hlaid fun _ =>
              hterm (by simp) (hkept (Or.inr (Or.inr ⟨b, by simp, hb⟩)))

/-! ## The inverse script -/

def ChangeTag.swap : ChangeTag → ChangeTag
  | .equal => .equal
  | .delete => .insert
  | .insert => .delete

def Change.swap (change : Change) : Change := { change with tag := change.tag.swap }

theorem blocksOf_swap (script : List Change) :
    blocksOf (script.map Change.swap) =
      ((blocksOf script).1.map Block.swap, (blocksOf script).2) := by
  induction script with
  | nil => rfl
  | cons change script ih =>
    rw [List.map_cons, blocksOf_cons, blocksOf_cons, ih]
    generalize blocksOf script = B
    obtain ⟨tag, v⟩ := change
    obtain ⟨bs, tail⟩ := B
    cases bs with
    | nil => cases tag <;> rfl
    | cons b bs =>
      by_cases hb : b.keep = []
      · cases tag <;> simp [consBlock, Change.swap, ChangeTag.swap, Block.swap, hb]
      · cases tag <;> simp [consBlock, Change.swap, ChangeTag.swap, Block.swap, hb]

theorem oldTokens_swap (script : List Change) :
    oldTokens (script.map Change.swap) = newTokens script := by
  induction script with
  | nil => rfl
  | cons change script ih =>
    obtain ⟨tag, v⟩ := change
    cases tag <;> simp [Change.swap, ChangeTag.swap, oldTokens, newTokens, ih]

theorem newTokens_swap (script : List Change) :
    newTokens (script.map Change.swap) = oldTokens script := by
  induction script with
  | nil => rfl
  | cons change script ih =>
    obtain ⟨tag, v⟩ := change
    cases tag <;> simp [Change.swap, ChangeTag.swap, oldTokens, newTokens, ih]

theorem ValidScript.swap {b c : Str} {script : List Change} (h : ValidScript b c script) :
    ValidScript c b (script.map Change.swap) where
  old := by rw [oldTokens_swap, h.new]
  new := by rw [newTokens_swap, h.old]

theorem Change.swap_equal_iff (change : Change) :
    change.swap.tag = .equal ↔ change.tag = .equal := by
  obtain ⟨tag, v⟩ := change
  cases tag <;> simp [swap, ChangeTag.swap]

theorem LinesAgree.swap {script : List Change} (h : LinesAgree script) :
    LinesAgree (script.map Change.swap) := by
  induction script with
  | nil => trivial
  | cons change script ih =>
    refine ⟨?_, ih h.2⟩
    rintro ⟨k, hk, hke⟩ ⟨d, hd, hde⟩
    rw [← List.map_cons, List.mem_map] at hk hd
    obtain ⟨k', hk', rfl⟩ := hk
    obtain ⟨d', hd', rfl⟩ := hd
    rw [Change.swap_equal_iff] at hke
    rw [Ne, Change.swap_equal_iff] at hde
    exact h.1 ⟨k', hk', hke⟩ ⟨d', hd', hde⟩

/-! ## One direction -/

/-- A kept empty line with only deleted lines before it and only inserted lines after it. -/
def Pinched (script : List Change) : Prop :=
  ∃ s₁ s₂, script = s₁ ++ ⟨.equal, ['\n']⟩ :: s₂ ∧ newTokens s₁ = [] ∧ oldTokens s₂ = []

theorem split_first_block {script : List Change} {b : Block} {bs : List Block} {tail : List Str}
    (hB : blocksOf script = (b :: bs, tail)) (hbs : bs ≠ []) :
    ∃ s₁ s₂, script = s₁ ++ s₂ ∧ blocksOf s₂ = (bs, tail) ∧ newTokens s₁ = b.keep ++ b.ins := by
  induction script generalizing b bs with
  | nil => simp at hB
  | cons change script ih =>
    rw [blocksOf_cons] at hB
    obtain ⟨tag, v⟩ := change
    cases hB' : blocksOf script with
    | mk bs' tail' =>
      rw [hB'] at hB
      cases bs' with
      | nil =>
        -- a single block at most comes out of a script without blocks
        cases tag with
        | equal => simp [consBlock] at hB
        | delete =>
          simp only [consBlock, Prod.mk.injEq, List.cons.injEq] at hB
          exact absurd hB.1.2.symm hbs
        | insert =>
          simp only [consBlock, Prod.mk.injEq, List.cons.injEq] at hB
          exact absurd hB.1.2.symm hbs
      | cons b' bs' =>
        cases tag with
        | equal =>
          simp only [consBlock, Prod.mk.injEq, List.cons.injEq] at hB
          obtain ⟨⟨rfl, rfl⟩, rfl⟩ := hB
          obtain ⟨s₁, s₂, rfl, h2, h3⟩ := ih hB' hbs
          exact ⟨⟨.equal, v⟩ :: s₁, s₂, rfl, h2, by simp [newTokens, h3]⟩
        | delete =>
          by_cases hk : b'.keep = []
          · simp only [consBlock, hk, if_true, Prod.mk.injEq, List.cons.injEq] at hB
            obtain ⟨⟨rfl, rfl⟩, rfl⟩ := hB
            obtain ⟨s₁, s₂, rfl, h2, h3⟩ := ih hB' hbs
            exact ⟨⟨.delete, v⟩ :: s₁, s₂, rfl, h2, by simpa [newTokens, hk] using h3⟩
          · simp only [consBlock, hk, if_false, Prod.mk.injEq, List.cons.injEq] at hB
            obtain ⟨⟨rfl, rfl⟩, rfl⟩ := hB
            exact ⟨[⟨.delete, v⟩], script, rfl, hB', rfl⟩
        | insert =>
          by_cases hk : b'.keep = []
          · simp only [consBlock, hk, if_true, Prod.mk.injEq, List.cons.injEq] at hB
            obtain ⟨⟨rfl, rfl⟩, rfl⟩ := hB
            obtain ⟨s₁, s₂, rfl, h2, h3⟩ := ih hB' hbs
            exact ⟨⟨.insert, v⟩ :: s₁, s₂, rfl, h2, by simpa [newTokens, hk] using h3⟩
          · simp only [consBlock, hk, if_false, Prod.mk.injEq, List.cons.injEq] at hB
            obtain ⟨⟨rfl, rfl⟩, rfl⟩ := hB
            exact ⟨[⟨.insert, v⟩], script, rfl, hB', rfl⟩

theorem consBlock_changed {change : Change} (h : change.tag ≠ .equal)
    (B : List Block × List Str) :
    ∃ b bs tail, consBlock change B = (b :: bs, tail) ∧ b.keep = [] := by
  obtain ⟨bs, tail⟩ := B
  obtain ⟨tag, v⟩ := change
  cases bs with
  | nil =>
    cases tag with
    | equal => contradiction
    | delete => exact ⟨_, _, _, rfl, rfl⟩
    | insert => exact ⟨_, _, _, rfl, rfl⟩
  | cons b bs =>
    by_cases hk : b.keep = []
    · cases tag with
      | equal => contradiction
      | delete => exact ⟨_, _, _, if_pos hk, hk⟩
      | insert => exact ⟨_, _, _, if_pos hk, hk⟩
    · cases tag with
      | equal => contradiction
      | delete => exact ⟨_, _, _, if_neg hk, rfl⟩
      | insert => exact ⟨_, _, _, if_neg hk, rfl⟩

/-- A script whose first block keeps a line starts with that line. -/
theorem starts_with_kept {script : List Change} {b : Block} {bs : List Block} {tail : List Str}
    (hB : blocksOf script = (b :: bs, tail)) {v : Str} {ks : List Str} (hk : b.keep = v :: ks) :
    ∃ s, script = ⟨.equal, v⟩ :: s := by
  cases script with
  | nil => simp at hB
  | cons change script =>
    rw [blocksOf_cons] at hB
    have htag : change.tag = .equal := by
      by_contra h
      obtain ⟨b', bs', tail', he, hk'⟩ := consBlock_changed h (blocksOf script)
      rw [he, Prod.mk.injEq, List.cons.injEq] at hB
      rw [hB.1.1, hk] at hk'
      contradiction
    obtain ⟨tag, w⟩ := change
    simp only at htag
    subst htag
    generalize blocksOf script = B at hB
    obtain ⟨bs', tail'⟩ := B
    cases bs' with
    | nil => simp [consBlock] at hB
    | cons b' bs' =>
      simp only [consBlock, Prod.mk.injEq, List.cons.injEq] at hB
      rw [← hB.1.1] at hk
      simp only [List.cons.injEq] at hk
      exact ⟨script, by rw [hk.1]⟩

theorem isToken_of_mem_oldTokens {script : List Change}
    (ht : ∀ change ∈ script, IsToken change.value) {v : Str} (h : v ∈ oldTokens script) :
    IsToken v := by
  induction script with
  | nil => simp [oldTokens] at h
  | cons change script ih =>
    obtain ⟨tag, w⟩ := change
    have hw : IsToken w := ht ⟨tag, w⟩ (by simp)
    have ih' := ih fun c hc => ht c (by simp [hc])
    cases tag with
    | insert => exact ih' h
    | equal =>
      rcases List.mem_cons.mp h with rfl | h
      · exact hw
      · exact ih' h
    | delete =>
      rcases List.mem_cons.mp h with rfl | h
      · exact hw
      · exact ih' h

theorem eq_nil_of_flatten_eq_nil {A : List Str} (hA : ∀ v ∈ A, IsToken v)
    (h : A.flatten = []) : A = [] := by
  cases A with
  | nil => rfl
  | cons v A =>
    rw [List.flatten_cons, List.append_eq_nil_iff] at h
    exact absurd h.1 (hA v (by simp)).1

theorem newTokens_append (s₁ s₂ : List Change) :
    newTokens (s₁ ++ s₂) = newTokens s₁ ++ newTokens s₂ := by
  induction s₁ with
  | nil => rfl
  | cons change s₁ ih =>
    obtain ⟨tag, v⟩ := change
    cases tag <;> simp [newTokens, ih]

/-- A terminated line that `str::lines` reads as empty. -/
theorem terminated_blank {v : Str} (hv : Terminated v) (h : chompLine v = [])
    (hc : hasCrlf v = false) : v = ['\n'] := by
  obtain ⟨x, hx, rfl⟩ := hv
  rw [hasCrlf_line hx, Bool.or_eq_false_iff, beq_eq_false_iff_ne] at hc
  rw [chompLine_terminated, chompCr_of_ne hc.1] at h
  rw [h]
  rfl

theorem pinched_of_single {script : List Change} {b : Block} {bs : List Block} {tail : List Str}
    (ht : ∀ change ∈ script, IsToken change.value) (hla : LinesAgree script)
    (hB : blocksOf script = (b :: bs, tail)) (hbs : bs ≠ [])
    (hcrlf : hasCrlf (oldText (b :: bs) tail) = false)
    (hone : lines (b.keep.flatten ++ (b.ins.flatten ++ oldText bs tail)) = [[]]) :
    Pinched script := by
  have hl : Laid (b :: bs) tail := by
    have h := laid_of_linesAgree ht hla
    rwa [hB] at h
  have hs : Separated (b :: bs) := by
    have h := separated_blocksOf script
    rwa [hB] at h
  obtain ⟨-, hk, -⟩ := hs
  have hins := (hl.change_terminated hbs).2
  have hZ := oldText_ne_nil hl.2.2 hbs hk
  have hpos := List.length_pos_iff.mpr (lines_ne_nil hZ)
  have hlen := congrArg List.length hone
  rw [lines_flatten_append hl.1, lines_flatten_append hins] at hlen
  simp only [List.length_append, List.length_map, List.length_singleton] at hlen
  have hkeep : b.keep = [] := List.eq_nil_of_length_eq_zero (by omega)
  have hi : b.ins = [] := List.eq_nil_of_length_eq_zero (by omega)
  obtain ⟨s₁, s₂, rfl, hB₂, hnew⟩ := split_first_block hB hbs
  obtain ⟨b', bs', rfl⟩ := List.exists_cons_of_ne_nil hbs
  obtain ⟨v, ks, hvk⟩ := List.exists_cons_of_ne_nil (hk b' (by simp))
  obtain ⟨s₃, rfl⟩ := starts_with_kept hB₂ hvk
  have hv : Terminated v := hl.2.2.1 v (by simp [hvk])
  -- the old lines after the cut are `v` and those of the rest
  have hrest : oldText (b' :: bs') tail = v ++ (oldTokens s₃).flatten := by
    have h := oldTokens_eq (⟨.equal, v⟩ :: s₃)
    rw [hB₂] at h
    rw [oldText, ← h]
    rfl
  rw [hkeep, hi, hrest] at hone
  have hsplit : chompLine v = [] ∧ lines (oldTokens s₃).flatten = [] := by
    have h := lines_flatten_append (A := [v]) (by simpa using hv) (oldTokens s₃).flatten
    simp only [List.flatten_nil, List.nil_append] at hone
    rw [List.flatten_singleton, hone] at h
    simpa using h.symm
  have hempty : oldTokens s₃ = [] := by
    apply eq_nil_of_flatten_eq_nil
    · intro w hw
      apply isToken_of_mem_oldTokens _ hw
      intro c hc
      exact ht c (by simp [hc])
    · by_contra hne
      exact lines_ne_nil hne hsplit.2
  have hvn : v = ['\n'] := by
    apply terminated_blank hv hsplit.1
    by_contra hcv
    rw [Bool.not_eq_false] at hcv
    have : hasCrlf (oldText (b :: b' :: bs') tail) = true := by
      rw [oldText_cons, hrest]
      exact hasCrlf_append_right _ (hasCrlf_append_right _ (hasCrlf_append_left _ hcv))
    rw [hcrlf] at this
    contradiction
  rw [hkeep, hi] at hnew
  exact ⟨s₁, s₃, by rw [hvn], hnew, hempty⟩

theorem blocksOf_inserted {s : List Change} (h : oldTokens s = []) (hne : s ≠ []) :
    blocksOf s = ([{ keep := [], del := [], ins := newTokens s }], []) := by
  induction s with
  | nil => contradiction
  | cons change s ih =>
    obtain ⟨tag, v⟩ := change
    cases tag with
    | equal => simp [oldTokens] at h
    | delete => simp [oldTokens] at h
    | insert =>
      by_cases hs : s = []
      · subst hs
        rfl
      · rw [blocksOf_cons, ih h hs]
        rfl

theorem blocksOf_deleted_append {s r : List Change} (h : newTokens s = []) (hne : s ≠ [])
    {b : Block} {bs : List Block} {tail : List Str} (hB : blocksOf r = (b :: bs, tail))
    (hk : b.keep ≠ []) :
    blocksOf (s ++ r) = ({ keep := [], del := oldTokens s, ins := [] } :: b :: bs, tail) := by
  induction s with
  | nil => contradiction
  | cons change s ih =>
    obtain ⟨tag, v⟩ := change
    cases tag with
    | equal => simp [newTokens] at h
    | insert => simp [newTokens] at h
    | delete =>
      rw [List.cons_append, blocksOf_cons]
      by_cases hs : s = []
      · subst hs
        rw [List.nil_append, hB, consBlock, if_neg hk]
        rfl
      · rw [ih h hs]
        rfl

/-- Between two nonempty sides, a pinched script has two blocks, and reverting the second
leaves the empty line. -/
theorem single_of_pinched {script : List Change} (h : Pinched script)
    (hold : (oldTokens script).flatten ≠ ['\n']) (hnew : (newTokens script).flatten ≠ ['\n']) :
    ∃ b b', blocksOf script = ([b, b'], []) ∧
      lines (b.keep.flatten ++ (b.ins.flatten ++ oldText [b'] [])) = [[]] := by
  obtain ⟨s₁, s₂, rfl, h1, h2⟩ := h
  have hs₁ : s₁ ≠ [] := by
    rintro rfl
    apply hold
    simp [oldTokens, h2]
  have hs₂ : s₂ ≠ [] := by
    rintro rfl
    apply hnew
    rw [newTokens_append, h1]
    rfl
  have hB : blocksOf (⟨.equal, ['\n']⟩ :: s₂) =
      ([{ keep := [['\n']], del := [], ins := newTokens s₂ }], []) := by
    rw [blocksOf_cons, blocksOf_inserted h2 hs₂]
    rfl
  refine ⟨_, _, blocksOf_deleted_append h1 hs₁ hB (by simp), ?_⟩
  rfl

section Direction

variable {b c : Str} {script : List Change}

theorem ValidScript.oldText_eq (hv : ValidScript b c script) :
    oldText (blocksOf script).1 (blocksOf script).2 = b := by
  rw [oldText, ← oldTokens_eq, hv.old, flatten_tokenizeLines]

theorem ValidScript.newText_eq (hv : ValidScript b c script) :
    newText (blocksOf script).1 (blocksOf script).2 = c := by
  rw [newText, ← newTokens_eq, hv.new, flatten_tokenizeLines]

theorem ValidScript.blocks_ne_nil (hv : ValidScript b c script) (hne : b ≠ c) :
    (blocksOf script).1 ≠ [] := by
  intro h
  apply hne
  rw [← hv.oldText_eq, ← hv.newText_eq, h]
  rfl

/-- Unless the blocks below the first leave a single empty line, reverting every block
normalizes the line ends and does nothing else. -/
theorem revert_script (hv : ValidScript b c script) (hla : LinesAgree script) (hne : b ≠ c)
    (hcb : ChompsOnce b) (hcc : ChompsOnce c) (he : endsNl c = endsNl b)
    (hone : ∀ b₀ bs, (blocksOf script).1 = b₀ :: bs → bs ≠ [] →
      lines (b₀.keep.flatten ++ (b₀.ins.flatten ++ oldText bs (blocksOf script).2)) ≠ [[]]) :
    revert 1 (blocksOf script).1 c = normalize b := by
  have hl := laid_of_linesAgree (fun _ => hv.isToken) hla
  have h := revert_eq_normalize [] (by simp) (separated_blocksOf script) hl
    (hv.blocks_ne_nil hne) hone
  simp only [List.flatten_nil, List.nil_append, List.length_nil, Nat.zero_add, hv.oldText_eq,
    hv.newText_eq] at h
  exact h he hcc hcb

theorem not_single_of_revert (hv : ValidScript b c script) (hla : LinesAgree script)
    (hcb : ChompsOnce b) (hcc : ChompsOnce c) (he : endsNl c = endsNl b)
    (hr : revert 1 (blocksOf script).1 c = b) (b₀ : Block) (bs : List Block)
    (hB : (blocksOf script).1 = b₀ :: bs) (hbs : bs ≠ []) :
    lines (b₀.keep.flatten ++ (b₀.ins.flatten ++ oldText bs (blocksOf script).2)) ≠ [[]] := by
  have hl := laid_of_linesAgree (fun _ => hv.isToken) hla
  have hs := separated_blocksOf script
  have hold := hv.oldText_eq
  have hnew := hv.newText_eq
  rw [hB] at hl hs hold hnew hr
  intro hone
  rw [← hold, ← hnew] at hr
  apply revert_ne_of_single hs hl hbs _ _ _ hone hr
  · rw [hold, hnew, he]
  · rwa [hnew]
  · rwa [hold]

theorem revert_exact_of (hv : ValidScript b c script) (hla : LinesAgree script) (hne : b ≠ c)
    (hcb : ChompsOnce b) (hcc : ChompsOnce c) (he : endsNl c = endsNl b)
    (hcrlf : hasCrlf b = false) (hblank : b ≠ ['\n']) (hp : ¬Pinched script) :
    revert 1 (blocksOf script).1 c = b := by
  rw [revert_script hv hla hne hcb hcc he, normalize_eq_self_iff]
  · exact ⟨hcrlf, hblank⟩
  · intro b₀ bs hB hbs hone
    have hold := hv.oldText_eq
    rw [hB] at hold
    apply hp
    apply pinched_of_single (fun _ => hv.isToken) hla (Prod.ext hB rfl) hbs _ hone
    rwa [hold]

theorem of_revert_exact (hv : ValidScript b c script) (hla : LinesAgree script) (hne : b ≠ c)
    (hcb : ChompsOnce b) (hcc : ChompsOnce c) (he : endsNl c = endsNl b)
    (hr : revert 1 (blocksOf script).1 c = b) : hasCrlf b = false ∧ b ≠ ['\n'] := by
  have hsingle := not_single_of_revert hv hla hcb hcc he hr
  rw [revert_script hv hla hne hcb hcc he hsingle] at hr
  exact (normalize_eq_self_iff b).mp hr

theorem not_pinched_of_revert (hv : ValidScript b c script) (hla : LinesAgree script)
    (hcb : ChompsOnce b) (hcc : ChompsOnce c) (he : endsNl c = endsNl b)
    (hr : revert 1 (blocksOf script).1 c = b) (hb : b ≠ ['\n']) (hc : c ≠ ['\n']) :
    ¬Pinched script := by
  intro hp
  obtain ⟨b₀, b₁, hB, hone⟩ := single_of_pinched hp
    (by rwa [hv.old, flatten_tokenizeLines]) (by rwa [hv.new, flatten_tokenizeLines])
  have h := not_single_of_revert hv hla hcb hcc he hr b₀ [b₁] (by rw [hB]) (by simp)
  rw [hB] at h
  exact h hone

/-- The two texts agree on a final newline if both directions are exact. -/
theorem ends_of_revert (hv : ValidScript b c script) (hla : LinesAgree script) (hne : b ≠ c)
    (hr : revert 1 (blocksOf script).1 c = b) (hO : endsNl b = true) : endsNl c = true := by
  by_contra hN
  rw [Bool.not_eq_true] at hN
  have hl := laid_of_linesAgree (fun _ => hv.isToken) hla
  apply revert_ne_of_ends (separated_blocksOf script) hl (hv.blocks_ne_nil hne)
  · rwa [hv.newText_eq]
  · rwa [hv.oldText_eq]
  · rw [hv.newText_eq, hv.oldText_eq, hr]

end Direction

/-! ## Texts without a lone carriage return -/

theorem hasLoneCr_append_right (x : Str) {s : Str} (h : hasLoneCr (x ++ s) = false) :
    hasLoneCr s = false := by
  induction x with
  | nil => exact h
  | cons c x ih =>
    rw [List.cons_append, hasLoneCr, Bool.or_eq_false_iff] at h
    exact ih h.2

theorem tokenizeLines_eq_splitInclusive {s : Str} (h : hasLoneCr s = false) :
    tokenizeLines s = splitInclusive s := by
  induction s with
  | nil => rfl
  | cons c s ih =>
    rw [hasLoneCr, Bool.or_eq_false_iff] at h
    rw [tokenizeLines, splitInclusive, ih h.2]
    by_cases hn : c = '\n'
    · simp [hn]
    · by_cases hr : c = '\r'
      · -- a carriage return at the very end is a line of its own either way
        have hs : s = [] ∨ s.head? = some '\n' := by
          cases s with
          | nil => exact Or.inl rfl
          | cons d s => simpa [hr] using h.1
        rcases hs with rfl | hs
        · simp [hr, splitInclusive]
        · cases splitInclusive s <;> simp [hr, hs]
      · cases splitInclusive s <;> simp [hn, hr]

theorem chompsOnce_of_no_loneCr {s : Str} (h : hasLoneCr s = false) : ChompsOnce s := by
  induction s using line_induction with
  | nil => simp [ChompsOnce, splitInclusive]
  | last x hx hn =>
    intro p hp he
    rw [splitInclusive_last hx hn, List.mem_singleton] at hp
    rw [hp, endsNl_of_not_mem hx] at he
    contradiction
  | line x s hx ih =>
    rw [chompsOnce_line hx]
    constructor
    · intro hlast
      by_cases hxr : x.getLast? = some '\r'
      · obtain ⟨y, rfl⟩ := List.getLast?_eq_some_iff.mp hxr
        rw [chompCr_append] at hlast
        obtain ⟨z, rfl⟩ := List.getLast?_eq_some_iff.mp hlast
        rw [List.append_assoc, List.append_assoc] at h
        have := hasLoneCr_append_right z h
        simp [hasLoneCr] at this
      · rw [chompCr_of_ne hxr] at hlast
        exact hxr hlast
    · have h' := hasLoneCr_append_right (x ++ ['\n']) (s := s) (by simpa using h)
      exact ih h'

theorem chompsOnce_of_no_crlf {s : Str} (h : hasCrlf s = false) : ChompsOnce s := by
  induction s using line_induction with
  | nil => simp [ChompsOnce, splitInclusive]
  | last x hx hn =>
    intro p hp he
    rw [splitInclusive_last hx hn, List.mem_singleton] at hp
    rw [hp, endsNl_of_not_mem hx] at he
    contradiction
  | line x s hx ih =>
    rw [hasCrlf_line hx, Bool.or_eq_false_iff, beq_eq_false_iff_ne] at h
    rw [chompsOnce_line hx, chompCr_of_ne h.1]
    exact ⟨h.1, ih h.2⟩

/-- Every piece but the last is terminated. -/
theorem endsNl_of_splitInclusive {s : Str} {p q : List Str} {v : Str}
    (h : splitInclusive s = p ++ v :: q) (hq : q ≠ []) : endsNl v = true := by
  induction s using line_induction generalizing p with
  | nil => simp [splitInclusive] at h
  | last x hx hn =>
    rw [splitInclusive_last hx hn] at h
    have hlen := congrArg List.length h
    have hpos := List.length_pos_iff.mpr hq
    simp only [List.length_append, List.length_cons, List.length_nil] at hlen
    omega
  | line x s hx ih =>
    rw [splitInclusive_line hx] at h
    cases p with
    | nil =>
      rw [List.nil_append, List.cons.injEq] at h
      rw [← h.1]
      simp [endsNl]
    | cons w p =>
      rw [List.cons_append, List.cons.injEq] at h
      exact ih h.2

theorem oldTokens_ne_nil {script : List Change} {c : Change} (hc : c ∈ script)
    (ht : c.tag ≠ .insert) : oldTokens script ≠ [] := by
  induction script with
  | nil => simp at hc
  | cons change script ih =>
    obtain ⟨tag, v⟩ := change
    cases tag with
    | equal => simp [oldTokens]
    | delete => simp [oldTokens]
    | insert =>
      rcases List.mem_cons.mp hc with rfl | hc
      · contradiction
      · exact ih hc

theorem newTokens_ne_nil {script : List Change} {c : Change} (hc : c ∈ script)
    (ht : c.tag ≠ .delete) : newTokens script ≠ [] := by
  rw [← oldTokens_swap]
  apply oldTokens_ne_nil (List.mem_map_of_mem hc)
  obtain ⟨tag, v⟩ := c
  cases tag <;> simp_all [Change.swap, ChangeTag.swap]

/-- Where both texts are cut at `\n` only, the numberings agree. -/
theorem linesAgree_of_pieces {script : List Change} (p q : List Str) {b c : Str}
    (hold : splitInclusive b = p ++ oldTokens script)
    (hnew : splitInclusive c = q ++ newTokens script) : LinesAgree script := by
  induction script generalizing p q with
  | nil => trivial
  | cons change script ih =>
    obtain ⟨tag, v⟩ := change
    constructor
    · rintro ⟨k, hk, hke⟩ ⟨d, hd, hde⟩
      cases tag with
      | equal =>
        have hd' : d ∈ script := by
          rcases List.mem_cons.mp hd with rfl | hd
          · exact absurd rfl hde
          · exact hd
        by_cases hdel : d.tag = .delete
        · exact endsNl_of_splitInclusive hold (oldTokens_ne_nil hd' (by simp [hdel]))
        · exact endsNl_of_splitInclusive hnew (newTokens_ne_nil hd' hdel)
      | delete =>
        have hk' : k ∈ script := by
          rcases List.mem_cons.mp hk with rfl | hk
          · contradiction
          · exact hk
        exact endsNl_of_splitInclusive hold (oldTokens_ne_nil hk' (by simp [hke]))
      | insert =>
        have hk' : k ∈ script := by
          rcases List.mem_cons.mp hk with rfl | hk
          · contradiction
          · exact hk
        exact endsNl_of_splitInclusive hnew (newTokens_ne_nil hk' (by simp [hke]))
    · cases tag with
      | equal =>
        exact ih (p ++ [v]) (q ++ [v]) (by simpa [oldTokens] using hold)
          (by simpa [newTokens] using hnew)
      | delete => exact ih (p ++ [v]) q (by simpa [oldTokens] using hold) hnew
      | insert => exact ih p (q ++ [v]) hold (by simpa [newTokens] using hnew)

/-! ## Rejecting and accepting everything -/

section RoundTrip

variable {HunkId Path : Type*} (diffLines : Str → Str → Option (List Change))
variable (newId : ℕ → HunkId) (path : Path) (source : HunkSource)

/-- Rejecting every hunk of a diff restores the baseline, and accepting every hunk makes the
baseline the current text. -/
def RoundTrip (baseline current : Str) : Prop :=
  let hunks := computeHunks diffLines newId path baseline current source
  rejectPatches current hunks = baseline ∧ acceptPatches baseline hunks = current

/-- The line ends survive `patch_lines`: no `\r\n`, the same final newline on both sides,
no text that is a single empty line, before, after or between two hunks, and no line of the
diff library that ends in a lone `\r` before the last hunk is over. -/
structure PatchSafe (baseline current : Str) (script : List Change) : Prop where
  old_crlf : hasCrlf baseline = false
  new_crlf : hasCrlf current = false
  ends : endsNl baseline = endsNl current
  old_blank : baseline ≠ ['\n']
  new_blank : current ≠ ['\n']
  agree : LinesAgree script
  old_pinched : ¬Pinched script
  new_pinched : ¬Pinched (script.map Change.swap)

theorem roundTrip_iff_revert {b c : Str} {script : List Change} (hne : b ≠ c)
    (hb : byteLen b ≤ maxDiffFileSize) (hc : byteLen c ≤ maxDiffFileSize)
    (hd : diffLines b c = some script) :
    RoundTrip diffLines newId path source b c ↔
      revert 1 (blocksOf script).1 c = b ∧
        revert 1 (blocksOf (script.map Change.swap)).1 b = c := by
  have hsize : ¬(byteLen b > maxDiffFileSize ∨ byteLen c > maxDiffFileSize) := by omega
  unfold RoundTrip computeHunks
  rw [if_neg hne, if_neg hsize, hd, blocksOf_swap]
  simp only [rejectPatches_hunks, acceptPatches_hunks]

theorem roundTrip_self (b : Str) : RoundTrip diffLines newId path source b b := by
  simp [RoundTrip, computeHunks, rejectPatches, acceptPatches]

/-- Reverting or accepting every tracked change is exact when the line ends are safe, and,
for texts without a lone carriage return, only then. -/
theorem round_trip_iff_patchSafe {b c : Str} {script : List Change}
    (hb : byteLen b ≤ maxDiffFileSize) (hc : byteLen c ≤ maxDiffFileSize)
    (hd : diffLines b c = some script) (hv : ValidScript b c script) :
    (b = c ∨ PatchSafe b c script → RoundTrip diffLines newId path source b c) ∧
    (hasLoneCr b = false → hasLoneCr c = false →
      RoundTrip diffLines newId path source b c → b = c ∨ PatchSafe b c script) := by
  by_cases hne : b = c
  · subst hne
    exact ⟨fun _ => roundTrip_self diffLines newId path source b, fun _ _ _ => Or.inl rfl⟩
  have hne' : c ≠ b := fun h => hne h.symm
  rw [roundTrip_iff_revert diffLines newId path source hne hb hc hd]
  constructor
  · intro h
    have hs := h.resolve_left hne
    have hcb := chompsOnce_of_no_crlf hs.old_crlf
    have hcc := chompsOnce_of_no_crlf hs.new_crlf
    exact ⟨revert_exact_of hv hs.agree hne hcb hcc hs.ends.symm hs.old_crlf hs.old_blank
        hs.old_pinched,
      revert_exact_of hv.swap hs.agree.swap hne' hcc hcb hs.ends hs.new_crlf hs.new_blank
        hs.new_pinched⟩
  · intro hlb hlc ⟨hr, ha⟩
    right
    have hla : LinesAgree script := by
      apply linesAgree_of_pieces [] []
      · rw [List.nil_append, hv.old, tokenizeLines_eq_splitInclusive hlb]
      · rw [List.nil_append, hv.new, tokenizeLines_eq_splitInclusive hlc]
    have hcb := chompsOnce_of_no_loneCr hlb
    have hcc := chompsOnce_of_no_loneCr hlc
    have hends : endsNl b = endsNl c := by
      have h1 := ends_of_revert hv hla hne hr
      have h2 := ends_of_revert hv.swap hla.swap hne' ha
      exact Bool.eq_iff_iff.mpr ⟨h1, h2⟩
    have hold := of_revert_exact hv hla hne hcb hcc hends.symm hr
    have hnew := of_revert_exact hv.swap hla.swap hne' hcc hcb hends ha
    exact
      { old_crlf := hold.1
        new_crlf := hnew.1
        ends := hends
        old_blank := hold.2
        new_blank := hnew.2
        agree := hla
        old_pinched := not_pinched_of_revert hv hla hcb hcc hends.symm hr hold.2 hnew.2
        new_pinched := not_pinched_of_revert hv.swap hla.swap hcc hcb hends ha hnew.2 hold.2 }

end RoundTrip

/-- A kept line and a changed one, all with plain `\n` ends. -/
def plainScript : List Change :=
  [⟨.equal, "one\n".toList⟩, ⟨.delete, "two\n".toList⟩, ⟨.insert, "2\n".toList⟩]

theorem not_pinched_of_not_mem {script : List Change} (h : ⟨.equal, ['\n']⟩ ∉ script) :
    ¬Pinched script := by
  rintro ⟨s₁, s₂, rfl, -, -⟩
  exact h (by simp)

theorem plain_text_round_trip :
    RoundTrip (fun _ _ => some plainScript) id () .external "one\ntwo\n".toList
      "one\n2\n".toList := by
  apply (round_trip_iff_patchSafe (fun _ _ => some plainScript) id () .external
    (by decide) (by decide) rfl ⟨by decide, by decide⟩).1
  right
  exact
    { old_crlf := by decide
      new_crlf := by decide
      ends := by decide
      old_blank := by decide
      new_blank := by decide
      agree := by simp [plainScript, LinesAgree, endsNl]
      old_pinched := not_pinched_of_not_mem (by decide)
      new_pinched := not_pinched_of_not_mem (by decide) }

/-- The same edit in a file with `\r\n` line ends. -/
def crlfScript : List Change :=
  [⟨.equal, "one\r\n".toList⟩, ⟨.delete, "two\r\n".toList⟩, ⟨.insert, "2\r\n".toList⟩]

/-- Rejecting an edit rewrites every line end of a `\r\n` file. -/
theorem crlf_text_not_restored :
    ValidScript "one\r\ntwo\r\n".toList "one\r\n2\r\n".toList crlfScript ∧
    rejectPatches "one\r\n2\r\n".toList
      (computeHunks (fun _ _ => some crlfScript) id () "one\r\ntwo\r\n".toList
        "one\r\n2\r\n".toList .external) = "one\ntwo\n".toList ∧
    ¬RoundTrip (fun _ _ => some crlfScript) id () .external "one\r\ntwo\r\n".toList
      "one\r\n2\r\n".toList := by
  have hreject : rejectPatches "one\r\n2\r\n".toList
      (computeHunks (fun _ _ => some crlfScript) id () "one\r\ntwo\r\n".toList
        "one\r\n2\r\n".toList .external) = "one\ntwo\n".toList := by
    unfold computeHunks
    rw [if_neg (by decide), if_neg (by decide)]
    simp only [rejectPatches_hunks]
    decide
  refine ⟨⟨by decide, by decide⟩, hreject, ?_⟩
  intro h
  have heq := hreject.symm.trans h.1
  revert heq
  decide

end GrokBuild.HunkTracker
