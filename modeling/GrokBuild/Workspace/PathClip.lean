import GrokBuild.Workspace.PathRoundTrip

/-!
# Clipping a path argument as text

The text scanner cuts a path at the characters outside of a small class and maps each piece as a
path of its own. A walk of `..` behind such a cut is not seen by the piece in front of it.
-/

namespace GrokBuild.Workspace

open GrokBuild.Text GrokBuild.TokenCuts PathVirtualization

/-! ## Normal forms by parts -/

section Parts

theorem length_below (parts : List Str) :
    (below parts).length = (parts.map fun part => part.length + 1).sum := by
  rw [below, List.length_flatMap]
  simp

theorem below_append (xs ys : List Str) : below (xs ++ ys) = below xs ++ below ys :=
  List.flatMap_append

theorem below_singleton (part : Str) : below [part] = '/' :: part := by
  rw [below, List.flatMap_singleton]

theorem splitOnChar_below {parts : List Str} (hne : parts ≠ [])
    (hslash : ∀ part ∈ parts, '/' ∉ part) : splitOnChar '/' (below parts) = [] :: parts := by
  rw [← rootedText_eq_below hne, rootedText, splitOnChar_sep, splitOnChar_joinOnChar hne hslash]

theorem below_inj {xs ys : List Str} (hx : ∀ part ∈ xs, '/' ∉ part) (hy : ∀ part ∈ ys, '/' ∉ part)
    (hxne : xs ≠ []) (hyne : ys ≠ []) (h : below xs = below ys) : xs = ys := by
  have hsplit := congrArg (splitOnChar '/') h
  rw [splitOnChar_below hxne hx, splitOnChar_below hyne hy] at hsplit
  exact (List.cons.inj hsplit).2

/-- A text is its first part and the others behind it. -/
theorem exists_parts (s : Str) : ∃ part parts, splitOnChar '/' s = part :: parts ∧
    s = part ++ below parts ∧ '/' ∉ part ∧ ∀ part ∈ parts, '/' ∉ part := by
  obtain ⟨part, parts, hsplit⟩ := List.exists_cons_of_ne_nil (splitOnChar_ne_nil '/' s)
  have hslash : ∀ p ∈ part :: parts, '/' ∉ p := by
    intro p hp
    rw [← hsplit] at hp
    exact not_mem_of_mem_splitOnChar hp
  refine ⟨part, parts, hsplit, ?_, hslash part List.mem_cons_self,
    fun p hp => hslash p (List.mem_cons_of_mem _ hp)⟩
  have hjoin : joinOnChar '/' (splitOnChar '/' s) = s := joinOnChar_splitOnChar s
  rw [← hjoin, hsplit, joinOnChar_cons_eq]
  rfl

/-- An absolute path is what stands below its root, the last part by itself. -/
theorem exists_below {path : Str} (h : path.head? = some '/') :
    ∃ front last, path = below (front ++ [last]) ∧ ∀ part ∈ front ++ [last], '/' ∉ part := by
  obtain ⟨rest, rfl⟩ := List.head?_eq_some_iff.1 h
  obtain ⟨part, parts, -, hrest, hpart, hparts⟩ := exists_parts rest
  have hbelow : '/' :: rest = below (part :: parts) := by
    rw [hrest]
    rfl
  have hslash : ∀ p ∈ part :: parts, '/' ∉ p := List.forall_mem_cons.2 ⟨hpart, hparts⟩
  rw [← List.dropLast_append_getLast (List.cons_ne_nil part parts)] at hbelow hslash
  exact ⟨_, _, hbelow, hslash⟩

/-- What `lexically_normalize` returns, by the stack that the walk over the parts leaves. -/
theorem lexicallyNormalize_below {front : List Str} {last : Str}
    (hslash : ∀ part ∈ front ++ [last], '/' ∉ part) :
    lexicallyNormalize (below (front ++ [last])) =
      ((front ++ [last]).foldlM pushPart []).map fun stack =>
        if stack = [] then ['/']
        else below stack.reverse ++ (if last = [] then ['/'] else []) := by
  have hne : front ++ [last] ≠ [] := List.append_ne_nil_of_right_ne_nil _ (List.cons_ne_nil _ _)
  have habs : startsWith (below (front ++ [last])) ['/'] = true := by
    rw [← rootedText_eq_below hne]
    rfl
  have hfold : ([] :: (front ++ [last])).foldlM pushPart [] =
      (front ++ [last]).foldlM pushPart [] := rfl
  rw [lexicallyNormalize, if_pos habs, splitOnChar_below hne hslash, hfold]
  cases hstack : (front ++ [last]).foldlM pushPart [] with
  | none => rfl
  | some stack =>
    rw [Option.map_some, Option.map_some]
    refine congrArg some ?_
    by_cases hnil : stack = []
    · rw [if_pos hnil, hnil]
      rfl
    · have hrev : stack.reverse ≠ [] := by simpa using hnil
      have hempty : stack.isEmpty = false := by simpa using hnil
      rw [if_neg hnil, hempty, if_neg Bool.false_ne_true, rootedText_eq_below hrev]
      refine congrArg _ ?_
      by_cases hlast : last = []
      · have hfront : front ≠ [] := by
          rintro rfl
          rw [hlast] at hstack
          exact hnil (Option.some.inj hstack).symm
        obtain ⟨part, parts, rfl⟩ := List.exists_cons_of_ne_nil hfront
        have hend : endsWith (below ((part :: parts) ++ [[]])) ['/'] = true := by
          rw [endsWith, List.isSuffixOf_iff_suffix, below_append]
          exact List.suffix_append _ _
        have hlen : 1 < (below ((part :: parts) ++ [[]])).length := by
          rw [below_append, List.length_append, below_singleton, length_below]
          simp
        rw [hlast, hend, decide_eq_true hlen]
        rfl
      · have hend : endsWith (below (front ++ [last])) ['/'] = false := by
          by_contra hend
          rw [Bool.not_eq_false, endsWith, List.isSuffixOf_iff_suffix, below_append,
            below_singleton] at hend
          obtain ⟨body, hbody⟩ := hend
          have hget := congrArg List.getLast? hbody
          rw [List.getLast?_concat, List.getLast?_append, List.getLast?_cons_of_ne_nil hlast] at hget
          obtain ⟨c, hc⟩ := Option.isSome_iff_exists.1 (List.getLast?_isSome.2 hlast)
          rw [hc, Option.some_or, Option.some.injEq] at hget
          exact hslash last (List.mem_append_right _ List.mem_cons_self)
            (hget ▸ List.mem_of_getLast? hc)
        rw [hend, if_neg hlast]
        rfl

theorem pushPart_eq_some {stack stack' : List Str} {part : Str}
    (h : pushPart stack part = some stack') :
    stack' = stack ∨ stack' = stack.tail ∨ part ≠ [] ∧ stack' = part :: stack := by
  unfold pushPart at h
  split at h
  · exact Or.inl (Option.some.inj h).symm
  · next hskip =>
    split at h
    · cases stack with
      | nil => cases h
      | cons top rest => exact Or.inr (Or.inl (Option.some.inj h).symm)
    · refine Or.inr (Or.inr ⟨?_, (Option.some.inj h).symm⟩)
      rintro rfl
      exact hskip rfl

theorem length_below_pushPart {stack stack' : List Str} {part : Str}
    (h : pushPart stack part = some stack') :
    (below stack').length ≤ (below stack).length + if part = [] then 0 else part.length + 1 := by
  obtain rfl | rfl | ⟨hpart, rfl⟩ := pushPart_eq_some h
  · exact Nat.le_add_right _ _
  · refine Nat.le_add_right_of_le ?_
    rw [length_below, length_below]
    cases stack with
    | nil => exact Nat.le_refl _
    | cons top rest => simp
  · rw [if_neg hpart, length_below, length_below]
    simp
    omega

theorem length_below_foldlM {parts stack stack' : List Str}
    (h : parts.foldlM pushPart stack = some stack') :
    (below stack').length ≤ (below stack).length + (below parts).length := by
  induction parts generalizing stack with
  | nil =>
    obtain rfl := Option.some.inj h
    exact Nat.le_add_right _ _
  | cons part parts ih =>
    rw [List.foldlM_cons] at h
    obtain ⟨next, hnext, hrest⟩ := Option.bind_eq_some_iff.1 h
    have hstep := length_below_pushPart hnext
    have hih := ih hrest
    have hcons : (below (part :: parts)).length = part.length + 1 + (below parts).length := by
      rw [length_below, length_below, List.map_cons, List.sum_cons]
    split at hstep
    · omega
    · omega

theorem length_below_reverse (parts : List Str) :
    (below parts.reverse).length = (below parts).length := by
  rw [length_below, length_below, List.map_reverse, List.sum_reverse]

/-- Normalizing does not make a path longer. -/
theorem length_lexicallyNormalize {path normalized : Str} (hhead : path.head? = some '/')
    (h : lexicallyNormalize path = some normalized) : normalized.length ≤ path.length := by
  obtain ⟨front, last, rfl, hslash⟩ := exists_below hhead
  rw [lexicallyNormalize_below hslash] at h
  obtain ⟨stack, hstack, rfl⟩ := Option.map_eq_some_iff.1 h
  have hlast : (below (front ++ [last])).length = (below front).length + (last.length + 1) := by
    rw [below_append, List.length_append, below_singleton, List.length_cons]
  rw [List.foldlM_append] at hstack
  obtain ⟨mid, hmid, hstack⟩ := Option.bind_eq_some_iff.1 hstack
  rw [List.foldlM_cons] at hstack
  obtain ⟨top, htop, hstack⟩ := Option.bind_eq_some_iff.1 hstack
  obtain rfl := Option.some.inj hstack
  have hfront := length_below_foldlM hmid
  have hstep := length_below_pushPart htop
  have hzero : (below []).length = 0 := rfl
  rw [hzero, Nat.zero_add] at hfront
  rw [hlast]
  split
  · rw [List.length_singleton]
    omega
  · rw [List.length_append, length_below_reverse]
    by_cases hnil : last = []
    · rw [if_pos hnil] at hstep ⊢
      rw [List.length_singleton]
      omega
    · rw [if_neg hnil] at hstep ⊢
      rw [List.length_nil]
      omega

end Parts

/-! ## Going on behind a cut -/

section Behind

/-- The parts are plain, but for an empty one at the end. -/
def PlainParts (parts : List Str) : Prop :=
  ∃ plain tail, (∀ part ∈ plain, PlainPart part) ∧ (tail = [] ∨ tail = [[]]) ∧ parts = plain ++ tail

theorem foldlM_pushPart_append {xs ys stack : List Str} :
    (xs ++ ys).foldlM pushPart stack =
      (xs.foldlM pushPart stack).bind fun mid => ys.foldlM pushPart mid :=
  List.foldlM_append

theorem foldlM_pushPart_singleton (part : Str) (stack : List Str) :
    [part].foldlM pushPart stack = pushPart stack part := by
  rw [List.foldlM_cons]
  cases pushPart stack part with
  | none => rfl
  | some next => rfl

theorem foldlM_pushPart_plainParts {plain tail stack : List Str}
    (hplain : ∀ part ∈ plain, PlainPart part) (htail : tail = [] ∨ tail = [[]]) :
    (plain ++ tail).foldlM pushPart stack = some (plain.reverse ++ stack) := by
  rw [foldlM_pushPart_append, foldlM_pushPart_plain hplain, Option.bind_some]
  obtain rfl | rfl := htail
  · rfl
  · rfl

/-- Where a list of parts ends as a normal form does, what stands behind the first ones is plain. -/
theorem plainParts_of_append {front back parts tail : List Str}
    (hparts : ∀ part ∈ parts, PlainPart part) (htail : tail = [] ∨ tail = [[]])
    (h : front ++ back = parts ++ tail) :
    ∃ plain tail', back = plain ++ tail' ∧ (∀ part ∈ plain, PlainPart part) ∧
      (tail' = [] ∨ tail' = [[]]) ∧ tail'.length ≤ tail.length := by
  obtain rfl | ⟨body, last, rfl⟩ := List.eq_nil_or_concat' back
  · exact ⟨[], [], rfl, List.forall_mem_nil _, Or.inl rfl, Nat.zero_le _⟩
  · obtain rfl | rfl := htail
    · rw [List.append_nil] at h
      refine ⟨body ++ [last], [], (List.append_nil _).symm, fun part hpart => ?_, Or.inl rfl,
        Nat.le_refl _⟩
      exact hparts part (h ▸ List.mem_append_right _ hpart)
    · rw [← List.append_assoc] at h
      obtain ⟨hbody, hlast⟩ := List.append_inj' h rfl
      refine ⟨body, [[]], by rw [(List.cons.inj hlast).1], fun part hpart => ?_, Or.inr rfl,
        Nat.le_refl _⟩
      exact hparts part (hbody ▸ List.mem_append_right _ hpart)

variable {front back : List Str} {last more : Str}

theorem plain_append (hmore : ∃ c ∈ more, c ≠ '.') (hlast : '/' ∉ last) (hslash : '/' ∉ more) :
    PlainPart (last ++ more) := by
  obtain ⟨c, hc, hdot⟩ := hmore
  have hmem : c ∈ last ++ more := List.mem_append_right _ hc
  refine ⟨List.ne_nil_of_mem hmem, ?_, ?_, ?_⟩
  · refine beq_eq_false_iff_ne.2 fun heq => hdot ?_
    rw [heq] at hmem
    exact List.mem_singleton.1 hmem
  · refine beq_eq_false_iff_ne.2 fun heq => hdot ?_
    rw [heq] at hmem
    simpa using hmem
  · rw [List.mem_append, not_or]
    exact ⟨hlast, hslash⟩

theorem below_concat_append (parts : List Str) (part more : Str) (back : List Str) :
    below (parts ++ [part]) ++ (more ++ below back) = below (parts ++ (part ++ more) :: back) := by
  rw [below_append, below_append, below_singleton, List.append_assoc]
  have hcons : below ((part ++ more) :: back) = ('/' :: (part ++ more)) ++ below back := rfl
  rw [hcons]
  simp

theorem stack_plain {parts stack : List Str} (hslash : ∀ part ∈ parts, '/' ∉ part)
    (h : parts.foldlM pushPart [] = some stack) : ∀ part ∈ stack, PlainPart part := by
  rw [← foldlM_pushPart_eq_foldl h]
  exact foldl_walkPart_plain (List.forall_mem_nil _) hslash

/-- The normal form is the stack of the parts, and an empty one at the end if they have one. -/
theorem lexicallyNormalize_parts {parts : List Str} (hne : parts ≠ [])
    (hslash : ∀ part ∈ parts, '/' ∉ part) {normalized : Str} :
    lexicallyNormalize (below parts) = some normalized ↔
      ∃ stack, parts.foldlM pushPart [] = some stack ∧
        normalized = below (stack.reverse ++
          if stack = [] ∨ parts.getLast? = some [] then [[]] else []) := by
  obtain rfl | ⟨front, last, rfl⟩ := List.eq_nil_or_concat' parts
  · exact absurd rfl hne
  · have hslashText : below [[]] = ['/'] := rfl
    rw [lexicallyNormalize_below hslash, Option.map_eq_some_iff, List.getLast?_concat]
    refine exists_congr fun stack => and_congr_right fun _ => ?_
    rw [below_append, eq_comm]
    by_cases hstack : stack = []
    · rw [if_pos hstack, if_pos (Or.inl hstack), hstack, hslashText]
      rfl
    · rw [if_neg hstack]
      by_cases hlast : last = []
      · rw [if_pos hlast, if_pos (Or.inr (congrArg some hlast)), hslashText]
      · rw [if_neg hlast, if_neg (not_or_intro hstack fun h => hlast (Option.some.inj h))]
        rfl

/-- Where the last part is no dot segment it is the last one of the normal form too, and otherwise
the normal form has fewer parts than the stack in front of it. -/
theorem normal_last {n : Str} (hslash : ∀ part ∈ front ++ [last], '/' ∉ part)
    (hn : lexicallyNormalize (below (front ++ [last])) = some n) (hroot : n ≠ ['/']) :
    ∃ stack, front.foldlM pushPart [] = some stack ∧
      if isDot last = true ∨ isDotDot last = true then
        ∃ body part, n = below (body ++ [part]) ∧ body.length < stack.length ∧
          ∀ p ∈ body ++ [part], PlainPart p
      else n = below (stack.reverse ++ [last]) := by
  have hne : front ++ [last] ≠ [] := List.append_ne_nil_of_right_ne_nil _ (List.cons_ne_nil _ _)
  obtain ⟨top, hfold, rfl⟩ := (lexicallyNormalize_parts hne hslash).1 hn
  have htop := stack_plain hslash hfold
  rw [foldlM_pushPart_append] at hfold
  obtain ⟨stack, hstack, hpush⟩ := Option.bind_eq_some_iff.1 hfold
  rw [foldlM_pushPart_singleton] at hpush
  refine ⟨stack, hstack, ?_⟩
  have htopne : top ≠ [] := by
    rintro rfl
    exact hroot rfl
  simp only [List.getLast?_concat, Option.some.injEq]
  -- of a dot segment nothing stays, and of `..` not even the part in front of it
  have hdots : last ≠ [] → top.length ≤ stack.length → ∃ body part,
      below (top.reverse ++ if top = [] ∨ last = [] then [[]] else []) = below (body ++ [part]) ∧
        body.length < stack.length ∧ ∀ p ∈ body ++ [part], PlainPart p := by
    intro hlast hle
    obtain hnil | ⟨body, part, heq⟩ := List.eq_nil_or_concat' top.reverse
    · exact absurd (List.reverse_eq_nil_iff.1 hnil) htopne
    · have hlength := congrArg List.length heq
      rw [List.length_reverse, List.length_append, List.length_singleton] at hlength
      refine ⟨body, part, ?_, by omega, fun p hp => ?_⟩
      · rw [if_neg (not_or_intro htopne hlast), List.append_nil, heq]
      · exact htop p (List.mem_reverse.1 (heq ▸ hp))
  unfold pushPart at hpush
  by_cases hdot : isDot last = true
  · rw [if_pos (Or.inl hdot)]
    rw [hdot, Bool.or_true, if_pos rfl] at hpush
    obtain rfl := Option.some.inj hpush
    refine hdots ?_ (Nat.le_refl _)
    rintro rfl
    cases hdot
  · rw [Bool.not_eq_true] at hdot
    rw [hdot, Bool.or_false] at hpush
    by_cases hdotDot : isDotDot last = true
    · rw [if_pos (Or.inr hdotDot)]
      have hlast : last ≠ [] := by
        rintro rfl
        cases hdotDot
      rw [if_neg (by simpa using hlast), if_pos hdotDot] at hpush
      refine hdots hlast ?_
      cases stack with
      | nil => cases hpush
      | cons first rest =>
        obtain rfl := Option.some.inj hpush
        exact Nat.le_succ _
    · rw [if_neg (by simp [hdot, hdotDot])]
      rw [if_neg hdotDot] at hpush
      by_cases hlast : last = []
      · rw [if_pos (by rw [hlast]; rfl)] at hpush
        rw [if_pos (Or.inr hlast), hlast, Option.some.inj hpush]
      · rw [if_neg (by simpa using hlast)] at hpush
        rw [if_neg (not_or_intro htopne hlast), List.append_nil, ← Option.some.inj hpush,
          List.reverse_cons]

/-- Text behind a cut stays as it is under normalizing exactly when the cut does not go through a
dot segment and only plain parts stand behind it. -/
theorem lexicallyNormalize_append_iff {n : Str} (hslash : ∀ part ∈ front ++ [last], '/' ∉ part)
    (hmore : ∃ c ∈ more, c ≠ '.') (hmoreSlash : '/' ∉ more) (hback : ∀ part ∈ back, '/' ∉ part)
    (hn : lexicallyNormalize (below (front ++ [last])) = some n) (hroot : n ≠ ['/']) :
    lexicallyNormalize (below (front ++ [last]) ++ (more ++ below back)) =
        some (n ++ (more ++ below back)) ↔
      isDot last = false ∧ isDotDot last = false ∧ PlainParts back := by
  obtain ⟨stack, hstack, hlast⟩ := normal_last hslash hn hroot
  rw [List.forall_mem_append, List.forall_mem_singleton] at hslash
  have hpart : PlainPart (last ++ more) := plain_append hmore hslash.2 hmoreSlash
  have hparts : ∀ part ∈ front ++ (last ++ more) :: back, '/' ∉ part := by
    rw [List.forall_mem_append, List.forall_mem_cons]
    exact ⟨hslash.1, hpart.no_slash, hback⟩
  have hne : front ++ (last ++ more) :: back ≠ [] :=
    List.append_ne_nil_of_right_ne_nil _ (List.cons_ne_nil _ _)
  have hfold : (front ++ (last ++ more) :: back).foldlM pushPart [] =
      back.foldlM pushPart ((last ++ more) :: stack) := by
    rw [foldlM_pushPart_append, hstack, Option.bind_some, List.foldlM_cons, pushPart_plain hpart]
    rfl
  rw [below_concat_append, lexicallyNormalize_parts hne hparts, hfold]
  constructor
  · rintro ⟨stack', hback', heq⟩
    have hplain := stack_plain hparts (hfold.trans hback')
    set tail := if stack' = [] ∨ (front ++ (last ++ more) :: back).getLast? = some [] then [[]]
      else ([] : List Str) with htaileq
    have htail : tail = [] ∨ tail = [[]] := by
      rw [htaileq]
      split
      · exact Or.inr rfl
      · exact Or.inl rfl
    have htailne : stack'.reverse ++ tail ≠ [] := by
      intro hnil
      rw [List.append_eq_nil_iff, List.reverse_eq_nil_iff] at hnil
      rw [htaileq, if_pos (Or.inl hnil.1)] at hnil
      cases hnil.2
    have hkept : ∀ {body part}, n = below (body ++ [part]) → (∀ p ∈ body ++ [part], '/' ∉ p) →
        PlainParts back ∧ stack.length ≤ body.length := by
      intro body part hbody hbodySlash
      rw [List.forall_mem_append, List.forall_mem_singleton] at hbodySlash
      rw [hbody, below_concat_append] at heq
      have hlists := below_inj ?_ ?_ (List.append_ne_nil_of_right_ne_nil _ (List.cons_ne_nil _ _))
        htailne heq
      · rw [List.append_cons] at hlists
        obtain ⟨plain, tail', rfl, hplain', htail', hle⟩ :=
          plainParts_of_append (fun p hp => hplain p (List.mem_reverse.1 hp)) htail hlists
        refine ⟨⟨plain, tail', hplain', htail', rfl⟩, ?_⟩
        rw [foldlM_pushPart_plainParts hplain' htail'] at hback'
        have hlength := congrArg List.length hlists
        rw [← Option.some.inj hback'] at hlength
        simp only [List.length_append, List.length_reverse, List.length_cons,
          List.length_nil] at hlength
        omega
      · rw [List.forall_mem_append, List.forall_mem_cons]
        refine ⟨hbodySlash.1, ?_, hback⟩
        rw [List.mem_append, not_or]
        exact ⟨hbodySlash.2, hmoreSlash⟩
      · rw [List.forall_mem_append]
        refine ⟨fun p hp => (hplain p (List.mem_reverse.1 hp)).no_slash, ?_⟩
        obtain hnil | hempty := htail
        · rw [hnil]
          exact List.forall_mem_nil _
        · rw [hempty, List.forall_mem_singleton]
          exact List.not_mem_nil
    by_cases hdots : isDot last = true ∨ isDotDot last = true
    · rw [if_pos hdots] at hlast
      obtain ⟨body, part, hbody, hlt, hbodyPlain⟩ := hlast
      exact absurd (hkept hbody fun p hp => (hbodyPlain p hp).no_slash).2 (Nat.not_le.2 hlt)
    · rw [if_neg hdots] at hlast
      rw [not_or, Bool.not_eq_true, Bool.not_eq_true] at hdots
      refine ⟨hdots.1, hdots.2, (hkept hlast ?_).1⟩
      rw [List.forall_mem_append, List.forall_mem_singleton]
      exact ⟨fun p hp => (stack_plain hslash.1 hstack p (List.mem_reverse.1 hp)).no_slash, hslash.2⟩
  · rintro ⟨hdot, hdotDot, plain, tail, hplain, htail, rfl⟩
    rw [if_neg (by simp [hdot, hdotDot])] at hlast
    refine ⟨_, foldlM_pushPart_plainParts hplain htail, ?_⟩
    have htaileq : (if plain.reverse ++ (last ++ more) :: stack = [] ∨
        (front ++ (last ++ more) :: (plain ++ tail)).getLast? = some [] then [[]] else []) = tail := by
      have hstackne : plain.reverse ++ (last ++ more) :: stack ≠ [] :=
        List.append_ne_nil_of_right_ne_nil _ (List.cons_ne_nil _ _)
      obtain rfl | rfl := htail
      · rw [if_neg (not_or_intro hstackne fun hget => ?_)]
        rw [List.append_nil, ← List.singleton_append, List.getLast?_append,
          List.getLast?_append] at hget
        cases hplainLast : plain.getLast? with
        | none =>
          rw [hplainLast] at hget
          exact hpart.ne_nil (Option.some.inj hget)
        | some part =>
          rw [hplainLast] at hget
          exact (hplain part (List.mem_of_getLast? hplainLast)).ne_nil (Option.some.inj hget)
      · rw [if_pos (Or.inr ?_)]
        rw [← List.cons_append, ← List.append_assoc, List.getLast?_concat]
    rw [hlast, below_concat_append, htaileq, List.reverse_append, List.reverse_reverse,
      List.reverse_cons]
    simp

end Behind

/-! ## A path cut at its first token -/

section Cut

variable {v : PathVirtualization} {t s base base' n : Str}

/-- The first token of a path, and what follows it. -/
def firstToken (path : Str) : Str := path.takeWhile inToken

def behindToken (path : Str) : Str := path.dropWhile inToken

def lastPart (path : Str) : Str := ((splitOnChar '/' path).getLast?).getD []

/-- The parts behind the one that a cut goes through are plain, but for an empty one at the end. -/
def PlainBehind (s : Str) : Prop := PlainParts (splitOnChar '/' s).tail

/-- Mapping the first token alone and keeping the rest is mapping the path: there is no rest; or the
token is not mapped, and the path is normalized; or the token goes below the real root by the prefix
by which the whole path goes there, does not end in a dot segment, and has only plain parts behind
it. -/
def CutsClean (v : PathVirtualization) (t s : Str) : Prop :=
  s = [] ∨ (¬v.WrittenUnder t ∧ lexicallyNormalize (t ++ s) = some (t ++ s)) ∨
    ∃ base n, v.mapped t = some base ∧ v.mapped (t ++ s) = some (base ++ s) ∧
      stayUnderRealRoot base v.realRoot = some n ∧ n ≠ v.realRoot ∧
      isDot (lastPart base) = false ∧ isDotDot (lastPart base) = false ∧ PlainBehind s

/-- `path` is `base` with `rest` behind it. -/
def Under (base path rest : Str) : Prop := path = base ++ rest ∧ (rest = [] ∨ rest.head? = some '/')

theorem Under.isSome (h : Under base t s) : (pathPrefixMatch t base).isSome = true :=
  Option.isSome_of_eq_some (pathPrefixMatch_eq_some_iff.2 h)

theorem exists_under (h : (pathPrefixMatch t base).isSome = true) : ∃ rest, Under base t rest := by
  obtain ⟨rest, hrest⟩ := Option.isSome_iff_exists.1 h
  exact ⟨rest, pathPrefixMatch_eq_some_iff.1 hrest⟩

theorem Under.append {rest : Str} (h : Under base t rest) (hrest : rest ≠ []) (s : Str) :
    Under base (t ++ s) (rest ++ s) := by
  obtain ⟨rfl, hslash⟩ := h
  obtain ⟨tail, rfl⟩ := List.head?_eq_some_iff.1 (hslash.resolve_left hrest)
  exact ⟨List.append_assoc _ _ _, Or.inr rfl⟩

/-- A base that is not longer than the token stands in front of the token already. -/
theorem Under.of_append {rest : Str} (h : Under base (t ++ s) rest)
    (hle : base.length ≤ t.length) : ∃ rest', Under base t rest' := by
  obtain ⟨heq, hslash⟩ := h
  obtain ⟨rest', rfl⟩ := List.prefix_of_prefix_length_le (heq ▸ List.prefix_append base rest)
    (List.prefix_append t s) hle
  refine ⟨rest', rfl, ?_⟩
  rw [List.append_assoc] at heq
  obtain rfl := List.append_cancel_left heq
  cases rest' with
  | nil => exact Or.inl rfl
  | cons c tail => exact hslash.imp (fun hnil => absurd hnil (List.cons_ne_nil _ _)) id

/-- How a path is mapped: the prefix goes, and the real root stands in its place. -/
theorem mapped_eq_some_iff {path : Str} : v.mapped path = some base ↔
    ∃ rest, base = v.realRoot ++ rest ∧ (Under v.realRoot path rest ∨
      (pathPrefixMatch path v.realRoot).isSome = false ∧ (Under artifactsAlias path rest ∨
        (pathPrefixMatch path artifactsAlias).isSome = false ∧ Under visibleRoot path rest)) := by
  rw [mapped]
  by_cases hreal : (pathPrefixMatch path v.realRoot).isSome = true
  · obtain ⟨rest, hrest⟩ := exists_under hreal
    rw [if_pos hreal, Option.some.injEq]
    constructor
    · rintro rfl
      exact ⟨rest, hrest.1, Or.inl hrest⟩
    · rintro ⟨rest', rfl, hunder | ⟨hnot, -⟩⟩
      · exact hunder.1
      · rw [hreal] at hnot
        cases hnot
  · have hnot := Bool.not_eq_true _ ▸ hreal
    rw [if_neg hreal]
    have hnotUnder : ∀ rest, ¬Under v.realRoot path rest := fun rest h => hreal h.isSome
    cases halias : pathPrefixMatch path artifactsAlias with
    | some rest =>
      have hunder := pathPrefixMatch_eq_some_iff.1 halias
      rw [Option.some.injEq, joinRootSuffix_eq hunder.2]
      constructor
      · rintro rfl
        exact ⟨rest, rfl, Or.inr ⟨hnot, Or.inl hunder⟩⟩
      · rintro ⟨rest', rfl, hunder' | ⟨-, hunder' | ⟨hfalse, -⟩⟩⟩
        · exact absurd hunder' (hnotUnder rest')
        · have heq := hunder.1.symm.trans hunder'.1
          rw [List.append_cancel_left heq]
        · cases hfalse
    | none =>
      dsimp only
      rw [Option.map_eq_some_iff]
      constructor
      · rintro ⟨rest, hrest, rfl⟩
        have hunder := pathPrefixMatch_eq_some_iff.1 hrest
        exact ⟨rest, joinRootSuffix_eq hunder.2, Or.inr ⟨hnot, Or.inr ⟨rfl, hunder⟩⟩⟩
      · rintro ⟨rest, rfl, hunder | ⟨-, hunder | ⟨-, hunder⟩⟩⟩
        · exact absurd hunder (hnotUnder rest)
        · have hsome := hunder.isSome
          rw [halias] at hsome
          cases hsome
        · exact ⟨rest, pathPrefixMatch_eq_some_iff.2 hunder, joinRootSuffix_eq hunder.2⟩

theorem stayUnderRealRoot_eq_some_iff : stayUnderRealRoot base v.realRoot = some n ↔
    lexicallyNormalize base = some n ∧ ∃ rest, Under v.realRoot n rest := by
  constructor
  · intro h
    obtain ⟨-, hprefix, -⟩ := stayUnderRealRoot_eq_some h
    rw [stayUnderRealRoot] at h
    obtain ⟨normalized, hnormal, hsome⟩ := Option.bind_eq_some_iff.1 h
    rw [Option.ite_none_right_eq_some] at hsome
    exact ⟨hsome.2 ▸ hnormal, exists_under hprefix⟩
  · rintro ⟨hnormal, rest, hunder⟩
    have hself := stayUnderRealRoot_of_guestPath (v := v)
      ⟨hunder.isSome, lexicallyNormalize_idem hnormal⟩
    rw [stayUnderRealRoot, lexicallyNormalize_idem hnormal] at hself
    rw [stayUnderRealRoot, hnormal]
    exact hself

theorem realRoot_ne_slash : ∀ rest, v.realRoot ++ rest ≠ ['/'] := by
  intro rest heq
  obtain ⟨part, parts, hsegments⟩ := List.exists_cons_of_ne_nil (realRoot_ne_nil (v := v))
  have hplain := normalSegments_plain v.realRoot part (hsegments ▸ List.mem_cons_self)
  have hroot : v.realRoot = below (part :: parts) := by
    rw [realRoot_eq_rootedText, hsegments, rootedText_eq_below (List.cons_ne_nil _ _)]
  have hlength := congrArg List.length heq
  rw [List.length_append, hroot, length_below, List.map_cons, List.sum_cons,
    List.length_singleton] at hlength
  have hpos := List.length_pos_of_ne_nil hplain.ne_nil
  omega

theorem realRoot_head_slash (v : PathVirtualization) (rest : Str) :
    (v.realRoot ++ rest).head? = some '/' := by
  obtain ⟨tail, htail⟩ := realRoot_head v
  rw [htail]
  rfl

/-- A prefix of token characters that a path is written under ends within the first token. -/
theorem Under.of_tokens {rest : Str} (h : Under base (t ++ s) rest)
    (hbase : ∀ c ∈ base, inToken c = true) (ht : ∀ c ∈ t, inToken c = true)
    (hs : Stops inToken s) : ∃ rest', Under base t rest' := by
  refine h.of_append ?_
  have hrun := takeWhile_append_stop ht hs
  rw [h.1, List.takeWhile_append_of_pos hbase] at hrun
  rw [← hrun, List.length_append]
  exact Nat.le_add_right _ _

theorem artifactsAlias_inToken : ∀ c ∈ artifactsAlias, inToken c = true :=
  List.all_eq_true.1 (by decide)

/-- Text that is cut off does not continue a path with a slash. -/
theorem not_under_of_stops {rest : Str} (hs : Stops inToken s) (hne : s ≠ []) :
    s = rest → ¬(rest = [] ∨ rest.head? = some '/') := by
  rintro rfl (hnil | hslash)
  · exact hne hnil
  · have hstop := hs '/' hslash
    cases hstop

/-- The token and the path go below the real root by the same prefix. -/
theorem mapped_append_eq (ht : ∀ c ∈ t, inToken c = true) (hs : Stops inToken s)
    (hbase : v.mapped t = some base) (hstay : stayUnderRealRoot base v.realRoot = some n)
    (hn : n ≠ v.realRoot) (hwhole : v.mapped (t ++ s) = some base')
    (hnormal : lexicallyNormalize base' = some (n ++ s)) : base' = base ++ s := by
  obtain ⟨hbaseNormal, below, hbelow⟩ := stayUnderRealRoot_eq_some_iff.1 hstay
  obtain ⟨rest, rfl, hfrom⟩ := mapped_eq_some_iff.1 hbase
  obtain ⟨rest', rfl, hfrom'⟩ := mapped_eq_some_iff.1 hwhole
  have hrest : rest ≠ [] := by
    rintro rfl
    rw [List.append_nil, lexicallyNormalize_realRoot] at hbaseNormal
    exact hn (Option.some.inj hbaseNormal).symm
  have hsame : ∀ {root : Str}, Under root t rest → Under root (t ++ s) rest' →
      v.realRoot ++ rest' = v.realRoot ++ rest ++ s := by
    intro root hunder hunder'
    have heq := (hunder.append hrest s).1.symm.trans hunder'.1
    rw [← List.append_cancel_left heq, List.append_assoc]
  have hlater : ∀ {root : Str}, Under root t rest →
      (pathPrefixMatch (t ++ s) root).isSome = false → False := by
    intro root hunder hnot
    rw [(hunder.append hrest s).isSome] at hnot
    cases hnot
  obtain hreal | ⟨hnotReal, hfrom⟩ := hfrom
  · obtain hreal' | ⟨hnot, -⟩ := hfrom'
    · exact hsame hreal hreal'
    · exact (hlater hreal hnot).elim
  · obtain hreal' | ⟨-, hfrom'⟩ := hfrom'
    · -- the real root is longer than the token, and the normal form would outgrow the path
      have hshort : t.length < v.realRoot.length := by
        by_contra hle
        obtain ⟨r, hr⟩ := hreal'.of_append (Nat.not_lt.1 hle)
        rw [hr.isSome] at hnotReal
        cases hnotReal
      have hlength := length_lexicallyNormalize (realRoot_head_slash v rest') hnormal
      rw [← hreal'.1, List.length_append, List.length_append, hbelow.1, List.length_append]
        at hlength
      omega
    · obtain halias | ⟨hnotAlias, hvisible⟩ := hfrom
      · obtain halias' | ⟨hnot, -⟩ := hfrom'
        · exact hsame halias halias'
        · exact (hlater halias hnot).elim
      · obtain halias' | ⟨-, hvisible'⟩ := hfrom'
        · obtain ⟨r, hr⟩ := halias'.of_tokens artifactsAlias_inToken ht hs
          rw [hr.isSome] at hnotAlias
          cases hnotAlias
        · exact hsame hvisible hvisible'

/-- The normal form of what is mapped keeps the text behind the cut just when the cut is clean. -/
theorem lexicallyNormalize_mapped_iff (hs : Stops inToken s) (hne : s ≠ [])
    (hbase : v.mapped t = some base) (hstay : stayUnderRealRoot base v.realRoot = some n) :
    lexicallyNormalize (base ++ s) = some (n ++ s) ↔
      isDot (lastPart base) = false ∧ isDotDot (lastPart base) = false ∧ PlainBehind s := by
  obtain ⟨hnormal, rest', hunder⟩ := stayUnderRealRoot_eq_some_iff.1 hstay
  obtain ⟨rest, hbaseEq, -⟩ := mapped_eq_some_iff.1 hbase
  obtain ⟨front, last, hbelow, hslash⟩ := exists_below (hbaseEq ▸ realRoot_head_slash v rest)
  have hlast : lastPart base = last := by
    rw [lastPart, hbelow, splitOnChar_below (List.append_ne_nil_of_right_ne_nil _
      (List.cons_ne_nil _ _)) hslash, ← List.cons_append, List.getLast?_concat, Option.getD_some]
  obtain ⟨more, back, hsplit, hmoreEq, hmoreSlash, hback⟩ := exists_parts s
  have hmore : ∃ c ∈ more, c ≠ '.' := by
    obtain ⟨c, tail, hcons⟩ := List.exists_cons_of_ne_nil hne
    have hstop := hs c (by rw [hcons]; rfl)
    cases more with
    | nil =>
      have hhead := below_head back (Or.inl rfl)
      rw [List.append_nil] at hhead
      exact absurd hhead (not_under_of_stops hs hne hmoreEq)
    | cons c' more =>
      rw [hcons, List.cons_append, List.cons.injEq] at hmoreEq
      refine ⟨c', List.mem_cons_self, ?_⟩
      rintro rfl
      rw [hmoreEq.1] at hstop
      cases hstop
  rw [hlast, PlainBehind, hsplit, List.tail_cons]
  rw [hbelow] at hnormal
  rw [hbelow, hmoreEq]
  exact lexicallyNormalize_append_iff hslash hmore hmoreSlash hback hnormal
    (hunder.1 ▸ realRoot_ne_slash rest')

theorem toGuest_of_mapped_eq {path : Str} (h : v.mapped path = some base) :
    v.toGuest path = (stayUnderRealRoot base v.realRoot).getD v.realRoot := by
  rw [toGuest, h]

/-- Mapping the first token alone gives what mapping the path gives just when the cut is clean. -/
theorem toGuest_append_iff (ht : ∀ c ∈ t, inToken c = true) (hs : Stops inToken s)
    (hpath : v.WrittenUnder (t ++ s)) :
    v.toGuest t ++ s = v.toGuest (t ++ s) ↔ CutsClean v t s := by
  by_cases hne : s = []
  · rw [hne, List.append_nil, List.append_nil]
    exact iff_of_true rfl (Or.inl rfl)
  rw [CutsClean, or_iff_right hne]
  obtain ⟨base', hwhole⟩ := Option.isSome_iff_exists.1 ((writtenUnder_iff_mapped _).1 hpath)
  by_cases hwritten : v.WrittenUnder t
  · obtain ⟨base, hbase⟩ := Option.isSome_iff_exists.1 ((writtenUnder_iff_mapped _).1 hwritten)
    rw [or_iff_right fun h => h.1 hwritten, toGuest_of_mapped_eq hbase]
    constructor
    · intro heq
      obtain ⟨resolved, hresolved, -, hprefix, -⟩ := toGuest_of_writtenUnder hpath
      obtain ⟨rest, hunder⟩ := exists_under hprefix
      -- below the root itself the text behind the cut would have to go on with a slash
      have hroot : v.realRoot ++ s ≠ v.toGuest (t ++ s) := by
        rw [hresolved, hunder.1]
        exact fun h => not_under_of_stops hs hne (List.append_cancel_left h) hunder.2
      cases hstay : stayUnderRealRoot base v.realRoot with
      | none =>
        rw [hstay] at heq
        exact absurd heq hroot
      | some n =>
        rw [hstay, Option.getD_some] at heq
        have hn : n ≠ v.realRoot := fun h => hroot (h ▸ heq)
        obtain ⟨-, below, hbelow⟩ := stayUnderRealRoot_eq_some_iff.1 hstay
        rw [toGuest_of_mapped_eq hwhole] at heq
        cases hstay' : stayUnderRealRoot base' v.realRoot with
        | none =>
          rw [hstay', Option.getD_none, hbelow.1, List.append_assoc] at heq
          exact absurd (List.append_eq_nil_iff.1 (List.append_right_eq_self.1 heq)).2 hne
        | some n' =>
          rw [hstay', Option.getD_some] at heq
          obtain ⟨hnormal, -⟩ := stayUnderRealRoot_eq_some_iff.1 hstay'
          rw [← heq] at hnormal
          obtain rfl := mapped_append_eq ht hs hbase hstay hn hwhole hnormal
          exact ⟨base, n, hbase, hwhole, hstay, hn,
            (lexicallyNormalize_mapped_iff hs hne hbase hstay).1 hnormal⟩
    · rintro ⟨base₁, n, hbase₁, hwhole₁, hstay, hn, hclean⟩
      obtain rfl := Option.some.inj (hbase.symm.trans hbase₁)
      obtain ⟨-, below, hbelow⟩ := stayUnderRealRoot_eq_some_iff.1 hstay
      have hbelowNe : below ≠ [] := by
        rintro rfl
        exact hn (hbelow.1.trans (List.append_nil _))
      have hnormal := (lexicallyNormalize_mapped_iff hs hne hbase hstay).2 hclean
      have hstay' := stayUnderRealRoot_eq_some_iff.2 ⟨hnormal, _, hbelow.append hbelowNe s⟩
      rw [toGuest_of_mapped_eq hwhole₁, hstay, hstay', Option.getD_some, Option.getD_some]
  · rw [toGuest_of_not_writtenUnder hwritten]
    constructor
    · intro heq
      obtain ⟨resolved, hresolved, -, -, hstay⟩ := toGuest_of_writtenUnder hpath
      rw [← heq] at hresolved
      rw [← hresolved] at hstay
      exact Or.inl ⟨hwritten, (stayUnderRealRoot_eq_some_iff.1 hstay).1⟩
    · rintro (⟨-, hnormal⟩ | ⟨base, _, hbase, -⟩)
      · have htokens : ∀ {root : Str}, (∀ c ∈ root, inToken c = true) →
            (pathPrefixMatch (t ++ s) root).isSome = true →
              (pathPrefixMatch t root).isSome = true := by
          intro root hroot hmatch
          obtain ⟨rest, hunder⟩ := exists_under hmatch
          obtain ⟨rest', hunder'⟩ := hunder.of_tokens hroot ht hs
          exact hunder'.isSome
        obtain hreal | halias | hvisible := hpath
        · exact (toGuest_of_guestPath ⟨hreal, hnormal⟩).symm
        · exact absurd (Or.inr (Or.inl (htokens artifactsAlias_inToken halias))) hwritten
        · exact absurd (Or.inr (Or.inr (htokens visibleRoot_inToken hvisible))) hwritten
      · exact absurd ((writtenUnder_iff_mapped t).2 (Option.isSome_of_eq_some hbase)) hwritten

/-- A token that the guest mapping leaves as it is. -/
def Kept (v : PathVirtualization) (t : Str) : Prop := ¬v.WrittenUnder t ∨ GuestPath v t

theorem Kept.toGuest_eq (h : Kept v t) : v.toGuest t = t := by
  obtain hnot | hguest := h
  · exact toGuest_of_not_writtenUnder hnot
  · exact toGuest_of_guestPath hguest

/-- The path tokens behind the first one. -/
def laterTokens (path : Str) : List Str :=
  tokens (pieces inboundCut (firstToken path).getLast? (behindToken path))

theorem head_slash_of_writtenUnder {path : Str} (h : v.WrittenUnder path) :
    path.head? = some '/' := by
  have hroot : ∀ {root : Str}, (∀ rest, (root ++ rest).head? = some '/') →
      (pathPrefixMatch path root).isSome = true → path.head? = some '/' := by
    intro root hhead hmatch
    obtain ⟨rest, hunder⟩ := exists_under hmatch
    rw [hunder.1]
    exact hhead rest
  obtain hreal | halias | hvisible := h
  · exact hroot (realRoot_head_slash v) hreal
  · exact hroot (fun _ => rfl) halias
  · exact hroot (fun _ => rfl) hvisible

theorem tokens_outbound {source : Str} {prev : Option Char} {s t : Str}
    (h : t ∈ tokens (pieces (outboundCut source) prev s)) : t = source := by
  induction prev, s using pieces.induct (outboundCut source) with
  | case1 prev =>
    rw [pieces] at h
    cases h
  | case2 prev c s hcut ih =>
    rw [pieces_kept hcut] at h
    exact ih h
  | case3 prev c s hcut ih =>
    rw [pieces_token (List.cons_ne_nil c s) hcut, tokens] at h
    cases List.mem_cons.1 h with
    | inl heq =>
      rw [outboundCut] at hcut heq
      by_cases hfound : startsWith (c :: s) source && !prev.any isPathTokenChar &&
          !((c :: s).drop source.length).head?.any isPathTokenChar
      · rw [if_pos hfound] at heq
        rw [Bool.and_eq_true, Bool.and_eq_true] at hfound
        rw [heq]
        exact (List.prefix_iff_eq_take.1 (List.isPrefixOf_iff_prefix.1 hfound.1.1)).symm
      · rw [if_neg hfound] at hcut
        exact absurd rfl hcut
    | inr hrest => exact ih hrest

theorem rewriteTextInbound_path {path : Str} (hpath : v.WrittenUnder path)
    (hkept : ∀ t ∈ laterTokens path, Kept v t) :
    v.rewriteTextInbound path = some (v.toGuest (firstToken path) ++ behindToken path) := by
  obtain ⟨tail, rfl⟩ := List.head?_eq_some_iff.1 (head_slash_of_writtenUnder hpath)
  have hcut : inboundCut none ('/' :: tail) ≠ 0 := by
    rw [inboundCut, Ne, runCut_cons_eq_zero_iff slash_inToken]
    intro h
    cases h rfl
  obtain ⟨htake, hdrop⟩ := take_runCut hcut
  rw [rewriteTextInbound_eq, pieces_token (List.cons_ne_nil _ _) hcut]
  simp only [inboundCut] at htake hdrop ⊢
  rw [htake, hdrop, render]
  refine congrArg some (congrArg _ ?_)
  have hself : ∀ t ∈ laterTokens ('/' :: tail), v.toGuest t = id t :=
    fun t ht => (hkept t ht).toGuest_eq
  exact (render_congr hself).trans (render_id _ _)

end Cut

/-! ## The scanners on a path -/

section Scans

/-- Both scanners cut every text into kept characters and path tokens, and only the tokens change.
Of a path under one of the prefixes, whose later tokens are no paths to be mapped, the text scanner
makes what the path mapping makes exactly when the cut behind the first token is clean. -/
theorem text_clips_as_path_iff (v : PathVirtualization) (text path : Str)
    (hpath : v.WrittenUnder path) :
    (∃ inbound outbound : List (Piece Char),
      (render id inbound = text ∧
        v.rewriteTextInbound text = some (render v.toGuest inbound) ∧
        ∀ t ∈ tokens inbound, ∀ c ∈ t, inToken c = true) ∧
      render id outbound = text ∧
        v.rewriteTextOutbound text = some (render (fun _ => visibleRoot) outbound) ∧
        ∀ t ∈ tokens outbound, t = v.realRoot) ∧
    ((∀ t ∈ laterTokens path, Kept v t) →
      (v.rewriteTextInbound path = some (v.toGuest path) ↔
        CutsClean v (firstToken path) (behindToken path))) := by
  refine ⟨⟨_, _, ⟨render_id none text, rewriteTextInbound_eq v text, fun t => tokens_inToken⟩,
    render_id none text, rewriteTextOutbound_eq v text, fun t => tokens_outbound⟩, fun hkept => ?_⟩
  have hsplit : firstToken path ++ behindToken path = path := List.takeWhile_append_dropWhile
  rw [rewriteTextInbound_path hpath hkept, Option.some.injEq]
  have hiff := toGuest_append_iff (v := v) (fun c hc => List.mem_takeWhile_imp hc)
    (stops_dropWhile path) (hsplit.symm ▸ hpath)
  rw [show path.takeWhile inToken ++ path.dropWhile inToken = path from hsplit] at hiff
  exact hiff

theorem text_clips_as_path_space :
    conversation.rewriteTextInbound "/workspace/a b".toList =
      some (conversation.toGuest "/workspace/a b".toList) := by
  refine ((text_clips_as_path_iff conversation [] "/workspace/a b".toList
    (Or.inr (Or.inr (by decide)))).2 ?_).2 ?_
  · have hlater : laterTokens "/workspace/a b".toList = [] := by decide +kernel
    rw [hlater]
    exact List.forall_mem_nil _
  · exact Or.inr (Or.inr ⟨"/workspace/conv/a".toList, "/workspace/conv/a".toList,
      by decide, by decide, by decide, by decide, by decide,
      by decide, ⟨[], [], List.forall_mem_nil _, Or.inl rfl, by decide⟩⟩)

/-- The walk out of the root stands behind a space, where the text scanner does not look. -/
theorem dots_behind_space_escape :
    conversation.WrittenUnder "/workspace/a b/../../../etc".toList ∧
      conversation.rewriteTextInbound "/workspace/a b/../../../etc".toList =
        some "/workspace/conv/a b/../../../etc".toList ∧
      lexicallyNormalize "/workspace/conv/a b/../../../etc".toList = some "/etc".toList ∧
      conversation.toGuest "/workspace/a b/../../../etc".toList = "/workspace/conv".toList ∧
      conversation.rewriteTextInbound "/workspace/a b/../../../etc".toList ≠
        some (conversation.toGuest "/workspace/a b/../../../etc".toList) :=
  ⟨Or.inr (Or.inr (by decide)), by decide, by decide, by decide,
    by decide⟩

end Scans

end GrokBuild.Workspace
