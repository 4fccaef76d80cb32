import GrokBuild.Workspace.PathText

/-!
# Guest paths shown and taken back

A guest path is shown to the model below the visible root. What the model gives back is taken for
one below the real root or below the artifacts alias where its text starts so, and only otherwise
for one below the visible root.
-/

namespace GrokBuild.Workspace

open GrokBuild.Text GrokBuild.TokenCuts PathVirtualization

section Prefixes

theorem pathPrefixMatch_eq_some_iff {path base rest : Str} :
    pathPrefixMatch path base = some rest ↔
      path = base ++ rest ∧ (rest = [] ∨ rest.head? = some '/') := by
  have hslash (s : Str) : startsWith s ['/'] = true ↔ s.head? = some '/' := by
    rw [startsWith, List.isPrefixOf_iff_prefix]
    cases s with
    | nil => simp
    | cons c s => simp [List.cons_prefix_cons, eq_comm]
  rw [pathPrefixMatch]
  by_cases heq : path = base
  · rw [if_pos (beq_iff_eq.2 heq), heq]
    constructor
    · intro h
      rw [← Option.some.inj h, List.append_nil]
      exact ⟨rfl, Or.inl rfl⟩
    · intro h
      rw [List.self_eq_append_right.1 h.1]
  · rw [if_neg (by simpa using heq)]
    constructor
    · intro h
      obtain ⟨rest', hstrip, hrest⟩ := Option.bind_eq_some_iff.1 h
      rw [Option.ite_none_right_eq_some] at hrest
      rw [← Option.some.inj hrest.2]
      rw [stripPrefix, Option.ite_none_right_eq_some] at hstrip
      obtain ⟨tail, htail⟩ := List.isPrefixOf_iff_prefix.1 hstrip.1
      rw [← Option.some.inj hstrip.2, ← htail, List.drop_left]
      rw [← Option.some.inj hstrip.2, ← htail, List.drop_left] at hrest
      exact ⟨rfl, Or.inr ((hslash _).1 hrest.1)⟩
    · rintro ⟨rfl, hrest⟩
      have hne : rest.head? = some '/' := hrest.resolve_left fun hnil =>
        heq (by rw [hnil, List.append_nil])
      rw [stripPrefix_append, Option.bind_some, if_pos ((hslash _).2 hne)]

theorem joinRootSuffix_eq {root rest : Str} (h : rest = [] ∨ rest.head? = some '/') :
    joinRootSuffix root rest = root ++ rest := by
  obtain rfl | hslash := h
  · rw [joinRootSuffix, List.append_nil]
    rfl
  · obtain ⟨s, rfl⟩ := List.head?_eq_some_iff.1 hslash
    rfl

/-- The part of a text in front of its first slash. -/
theorem append_slash_inj {a b x y : Str} (ha : '/' ∉ a) (hb : '/' ∉ b)
    (hx : x = [] ∨ x.head? = some '/') (hy : y = [] ∨ y.head? = some '/')
    (h : a ++ x = b ++ y) : a = b ∧ x = y := by
  have hstops : ∀ s : Str, s = [] ∨ s.head? = some '/' → Stops (fun c => c ≠ '/') s := by
    rintro s (rfl | hs) c hc
    · cases hc
    · rw [hs] at hc
      rw [← Option.some.inj hc]
      decide
  have hrun : ∀ s : Str, '/' ∉ s → ∀ c ∈ s, decide (c ≠ '/') = true :=
    fun s hs c hc => decide_eq_true fun heq => hs (heq ▸ hc)
  have heq : a = b := by
    rw [← takeWhile_append_stop (hrun a ha) (hstops x hx), h,
      takeWhile_append_stop (hrun b hb) (hstops y hy)]
  rw [heq] at h
  exact ⟨heq, List.append_cancel_left h⟩

/-- The text of segments below a root. -/
def below (parts : List Str) : Str := parts.flatMap ('/' :: ·)

theorem rootedText_eq_below {parts : List Str} (h : parts ≠ []) :
    rootedText parts = below parts := by
  rw [rootedText]
  induction parts with
  | nil => exact absurd rfl h
  | cons part parts ih =>
    cases parts with
    | nil => simp [below]
    | cons next parts =>
      rw [joinOnChar_cons part (List.cons_ne_nil next parts), ih (List.cons_ne_nil next parts)]
      rfl

theorem below_head (parts : List Str) {slash : Str} (h : slash = [] ∨ slash = ['/']) :
    below parts ++ slash = [] ∨ (below parts ++ slash).head? = some '/' := by
  cases parts with
  | cons part parts => exact Or.inr rfl
  | nil =>
    obtain rfl | rfl := h
    · exact Or.inl rfl
    · exact Or.inr rfl

end Prefixes

section Guest

variable {v : PathVirtualization} {g rest : Str}

/-- A guest path: it is the real root or below it, and normalized. -/
def GuestPath (v : PathVirtualization) (g : Str) : Prop :=
  (pathPrefixMatch g v.realRoot).isSome = true ∧ lexicallyNormalize g = some g

theorem stayUnderRealRoot_of_guestPath (h : GuestPath v g) :
    stayUnderRealRoot g v.realRoot = some g := by
  obtain ⟨rest, hrest⟩ := Option.isSome_iff_exists.1 h.1
  obtain ⟨heq, hslash⟩ := pathPrefixMatch_eq_some_iff.1 hrest
  rw [stayUnderRealRoot, h.2, Option.bind_some]
  refine if_pos ?_
  rw [Bool.or_eq_true, beq_iff_eq]
  obtain rfl | hhead := hslash
  · exact Or.inl (heq.trans (List.append_nil _))
  · obtain ⟨s, rfl⟩ := List.head?_eq_some_iff.1 hhead
    refine Or.inr (List.isPrefixOf_iff_prefix.2 ⟨s, ?_⟩)
    rw [heq, List.append_assoc]
    rfl

theorem toGuest_of_mapped {path : Str} (h : GuestPath v g) (hmapped : v.mapped path = some g) :
    v.toGuest path = g := by
  rw [toGuest, hmapped]
  dsimp only
  rw [stayUnderRealRoot_of_guestPath h, Option.getD_some]

theorem toGuest_of_guestPath (h : GuestPath v g) : v.toGuest g = g :=
  toGuest_of_mapped h (by rw [mapped, if_pos h.1])

/-- A guest path is its segments below the real root. -/
theorem guestPath_iff : GuestPath v g ↔ ∃ parts slash, (∀ part ∈ parts, PlainPart part) ∧
    (slash = [] ∨ slash = ['/']) ∧ g = v.realRoot ++ (below parts ++ slash) := by
  constructor
  · rintro ⟨hsome, hnormal⟩
    obtain ⟨rest, hrest⟩ := Option.isSome_iff_exists.1 hsome
    obtain ⟨heq, hslash⟩ := pathPrefixMatch_eq_some_iff.1 hrest
    have hunder : normalSegments v.realRoot <+: normalSegments g := by
      obtain rfl | hhead := hslash
      · rw [heq, List.append_nil]
      · obtain ⟨s, rfl⟩ := List.head?_eq_some_iff.1 hhead
        refine (liesUnder_of_startsWith hnormal (List.isPrefixOf_iff_prefix.2 ⟨s, ?_⟩)).2
        rw [heq, List.append_assoc]
        rfl
    obtain ⟨parts, hparts⟩ := hunder
    have hplain := normalSegments_plain g
    obtain ⟨-, ⟨hnil, -⟩ | ⟨hne, slash, hslash', hg⟩⟩ := lexicallyNormalize_cases hnormal
    · rw [hnil] at hparts
      exact absurd (List.append_eq_nil_iff.1 hparts).1 realRoot_ne_nil
    · refine ⟨parts, slash, fun part hm => hplain part (hparts ▸ List.mem_append_right _ hm),
        hslash', ?_⟩
      rw [← List.append_assoc, realRoot_eq_rootedText (v := v), rootedText_eq_below realRoot_ne_nil,
        below, below, ← List.flatMap_append, hparts]
      exact hg.trans (congrArg (· ++ slash) (rootedText_eq_below hne))
  · rintro ⟨parts, slash, hplain, hslash, rfl⟩
    refine ⟨?_, ?_⟩
    · rw [pathPrefixMatch_eq_some_iff.2 ⟨rfl, below_head parts hslash⟩, Option.isSome_some]
    · have hall : ∀ part ∈ normalSegments v.realRoot ++ parts, PlainPart part := by
        intro part hm
        cases List.mem_append.1 hm with
        | inl hroot => exact normalSegments_plain _ part hroot
        | inr hparts => exact hplain part hparts
      have hne : normalSegments v.realRoot ++ parts ≠ [] := fun hnil =>
        realRoot_ne_nil (List.append_eq_nil_iff.1 hnil).1
      have htext : v.realRoot ++ (below parts ++ slash) =
          rootedText (normalSegments v.realRoot ++ parts) ++ slash := by
        rw [rootedText_eq_below hne, ← List.append_assoc]
        conv_lhs => rw [realRoot_eq_rootedText (v := v), rootedText_eq_below realRoot_ne_nil]
        rw [below, below, below, List.flatMap_append]
      rw [htext]
      exact lexicallyNormalize_rootedText hne hall hslash

theorem plainPart_of_decide {part : Str} (h : part ≠ [] ∧ isDot part = false ∧
    isDotDot part = false ∧ '/' ∉ part) : PlainPart part :=
  ⟨h.1, h.2.1, h.2.2.1, h.2.2.2⟩

/-- The visible form is a path of its own, below the real root or not. -/
theorem visible_normal {parts : List Str} (hplain : ∀ part ∈ parts, PlainPart part) {slash : Str}
    (hslash : slash = [] ∨ slash = ['/']) :
    lexicallyNormalize (visibleRoot ++ (below parts ++ slash)) =
      some (visibleRoot ++ (below parts ++ slash)) := by
  have hworkspace : PlainPart "workspace".toList := plainPart_of_decide (by decide)
  have htext : visibleRoot ++ (below parts ++ slash) =
      rootedText ("workspace".toList :: parts) ++ slash := by
    rw [rootedText_eq_below (List.cons_ne_nil _ _), ← List.append_assoc]
    rfl
  rw [htext]
  refine lexicallyNormalize_rootedText (List.cons_ne_nil _ _) ?_ hslash
  rw [List.forall_mem_cons]
  exact ⟨hworkspace, hplain⟩

theorem toModelVisible_append (h : rest = [] ∨ rest.head? = some '/') :
    v.toModelVisible (v.realRoot ++ rest) = visibleRoot ++ rest := by
  rw [toModelVisible, pathPrefixMatch_eq_some_iff.2 ⟨rfl, h⟩]
  exact joinRootSuffix_eq h

/-- The visible form of a guest path is below the visible root only: it is not below the artifacts
alias, nor below a real root that differs from the visible one. -/
def Distinct (v : PathVirtualization) (g : Str) : Prop :=
  v.realRoot = visibleRoot ∨ pathPrefixMatch (v.toModelVisible g) v.realRoot = none ∧
    pathPrefixMatch (v.toModelVisible g) artifactsAlias = none

/-- What comes back for a guest path: the path, its visible form where that is below the real root,
or a shorter one where it is below the alias. -/
theorem toGuest_visible (h : GuestPath v g) :
    ∃ rest, g = v.realRoot ++ rest ∧ v.toModelVisible g = visibleRoot ++ rest ∧
      (Distinct v g ∧ v.toGuest (v.toModelVisible g) = g ∨
        ¬Distinct v g ∧ (v.realRoot ≠ visibleRoot ∧
          v.toGuest (v.toModelVisible g) = visibleRoot ++ rest ∨
          ∃ rest', rest = "/artifacts".toList ++ rest' ∧
            v.toGuest (v.toModelVisible g) = v.realRoot ++ rest')) := by
  obtain ⟨parts, slash, hplain, hslash, hg⟩ := guestPath_iff.1 h
  have hrest := below_head parts hslash
  refine ⟨below parts ++ slash, hg, ?_, ?_⟩
  · rw [hg, toModelVisible_append hrest]
  have hshown : v.toModelVisible g = visibleRoot ++ (below parts ++ slash) := by
    rw [hg, toModelVisible_append hrest]
  rw [Distinct, hshown]
  by_cases hsame : v.realRoot = visibleRoot
  · refine Or.inl ⟨Or.inl hsame, ?_⟩
    rw [← hsame, ← hg]
    exact toGuest_of_guestPath h
  cases hreal : pathPrefixMatch (visibleRoot ++ (below parts ++ slash)) v.realRoot with
  | some _ =>
    refine Or.inr ⟨fun hd => ?_, Or.inl ⟨hsame, ?_⟩⟩
    · cases (hd.resolve_left hsame).1
    · refine toGuest_of_guestPath ⟨?_, visible_normal hplain hslash⟩
      rw [hreal, Option.isSome_some]
  | none =>
    cases halias : pathPrefixMatch (visibleRoot ++ (below parts ++ slash)) artifactsAlias with
    | none =>
      refine Or.inl ⟨Or.inr ⟨rfl, rfl⟩, ?_⟩
      have hvisible := pathPrefixMatch_eq_some_iff.2
        ⟨(rfl : visibleRoot ++ (below parts ++ slash) = _), hrest⟩
      refine toGuest_of_mapped h ?_
      rw [mapped, hreal, if_neg (by simp), halias, hvisible]
      dsimp only
      rw [Option.map_some, joinRootSuffix_eq hrest, hg]
    | some rest' =>
      -- the first segment is the last one of the alias
      obtain ⟨htext, hrest'⟩ := pathPrefixMatch_eq_some_iff.1 halias
      have hinner : below parts ++ slash = '/' :: ("artifacts".toList ++ rest') :=
        List.append_cancel_left (htext.trans (List.append_assoc visibleRoot _ rest'))
      cases parts with
      | nil =>
        exfalso
        have hlength := congrArg List.length hinner
        obtain rfl | rfl := hslash
        · exact absurd hlength (by simp [below])
        · rw [List.length_cons, List.length_append] at hlength
          exact absurd hlength (by simp [below])
      | cons part parts =>
        rw [List.forall_mem_cons] at hplain
        obtain ⟨hpart, hbelow⟩ := append_slash_inj hplain.1.no_slash (by decide)
          (below_head parts hslash) hrest'
          ((List.append_assoc _ _ _).symm.trans (List.cons.inj hinner).2)
        have hguest : GuestPath v (v.realRoot ++ rest') :=
          guestPath_iff.2 ⟨parts, slash, hplain.2, hslash, by rw [hbelow]⟩
        refine Or.inr ⟨fun hd => ?_, Or.inr ⟨rest', hinner, ?_⟩⟩
        · cases (hd.resolve_left hsame).2
        · refine toGuest_of_mapped hguest ?_
          rw [mapped, hreal, if_neg (by simp), halias]
          dsimp only
          rw [joinRootSuffix_eq hrest']

/-- A guest path comes back exactly when its visible form is below the visible root only. -/
theorem toGuest_toModelVisible_iff (h : GuestPath v g) :
    v.toGuest (v.toModelVisible g) = g ↔ Distinct v g := by
  obtain ⟨rest, hg, hshown, ⟨hd, heq⟩ | ⟨hd, hback⟩⟩ := toGuest_visible h
  · exact iff_of_true heq hd
  · refine iff_of_false (fun heq => ?_) hd
    obtain ⟨hsame, hvisible⟩ | ⟨rest', hrest, hshort⟩ := hback
    · rw [hvisible, hg] at heq
      exact hsame (List.append_cancel_right heq).symm
    · rw [hshort, hg, hrest] at heq
      have hlength := congrArg List.length (List.append_cancel_left heq)
      rw [List.length_append] at hlength
      exact absurd hlength (by simp)

end Guest

/-! ## Texts -/

section Texts

variable {v : PathVirtualization} {g : Str}

/-- Every slash has a token character before it. -/
def Guarded : Option Char → Str → Prop
  | _, [] => True
  | prev, c :: s => (c = '/' → prev.any isPathTokenChar = true) ∧ Guarded (some c) s

theorem guarded_below {parts : List Str} (hplain : ∀ part ∈ parts, PlainPart part) {slash : Str}
    (hslash : slash = [] ∨ slash = ['/']) (htoken : ∀ c ∈ below parts, inToken c = true)
    {prev : Option Char} (hprev : prev.any isPathTokenChar = true) :
    Guarded prev (below parts ++ slash) := by
  induction parts generalizing prev with
  | nil =>
    obtain rfl | rfl := hslash
    · trivial
    · exact ⟨fun _ => hprev, trivial⟩
  | cons part parts ih =>
    rw [List.forall_mem_cons] at hplain
    have hrest : ∀ c ∈ below parts, inToken c = true := fun c hc =>
      htoken c (List.mem_append_right _ hc)
    have hpart : ∀ c ∈ part, isPathTokenChar c = true := by
      intro c hc
      have htok := htoken c (List.mem_append_left _ (List.mem_cons_of_mem _ hc))
      rw [inToken, Bool.or_eq_true, beq_iff_eq] at htok
      exact htok.resolve_left fun heq => hplain.1.no_slash (heq ▸ hc)
    have hrun : ∀ (s : Str) (prev' : Option Char), (∀ c ∈ s, isPathTokenChar c = true) →
        '/' ∉ s → (s ≠ [] ∨ prev'.any isPathTokenChar = true) →
        Guarded prev' (s ++ (below parts ++ slash)) := by
      intro s
      induction s with
      | nil => exact fun prev' _ _ hend => ih hplain.2 hrest (hend.resolve_left (fun h => h rfl))
      | cons c s ihs =>
        intro prev' hs hno _
        refine ⟨fun heq => absurd (heq ▸ List.mem_cons_self) hno, ihs (some c)
          (fun d hd => hs d (List.mem_cons_of_mem _ hd))
          (fun hm => hno (List.mem_cons_of_mem _ hm)) (Or.inr ?_)⟩
        exact hs c List.mem_cons_self
    have happend : below (part :: parts) ++ slash = '/' :: (part ++ (below parts ++ slash)) :=
      congrArg ('/' :: ·) (List.append_assoc _ _ _)
    rw [happend]
    exact ⟨fun _ => hprev, hrun part _ hpart hplain.1.no_slash (Or.inl hplain.1.ne_nil)⟩

theorem realRoot_head (v : PathVirtualization) : ∃ s, v.realRoot = '/' :: s := by
  rw [realRoot_eq_rootedText]
  exact ⟨_, rfl⟩

theorem realRoot_last (v : PathVirtualization) :
    ∃ c, v.realRoot.getLast? = some c ∧ c ≠ '/' ∧ c ∈ v.realRoot := by
  have hplain := normalSegments_plain v.realRoot
  obtain ⟨init, last, hsplit⟩ := (List.eq_nil_or_concat' _).resolve_left (realRoot_ne_nil (v := v))
  have hlast : PlainPart last := hplain last (hsplit ▸ List.mem_append_right _ List.mem_cons_self)
  have htext : v.realRoot = below init ++ '/' :: last := by
    conv_lhs => rw [realRoot_eq_rootedText (v := v), rootedText_eq_below realRoot_ne_nil, hsplit]
    rw [below, List.flatMap_append, List.flatMap_singleton]
    rfl
  obtain ⟨front, c, hc⟩ := (List.eq_nil_or_concat' last).resolve_left hlast.ne_nil
  refine ⟨c, ?_, fun heq => hlast.no_slash ?_, ?_⟩
  · rw [htext, hc, ← List.cons_append, ← List.append_assoc, List.getLast?_concat]
  · rw [hc, ← heq]
    exact List.mem_append_right _ List.mem_cons_self
  · rw [htext, hc]
    simp

/-- No real root is replaced at a slash with a token character before it. -/
theorem outboundCut_eq_zero {prev : Option Char} {c : Char} {s : Str}
    (h : c = '/' → prev.any isPathTokenChar = true) : outboundCut v.realRoot prev (c :: s) = 0 := by
  obtain ⟨root, hroot⟩ := realRoot_head v
  refine if_neg fun hboth => ?_
  simp only [Bool.and_eq_true] at hboth
  have hprefix := List.isPrefixOf_iff_prefix.1 hboth.1.1
  rw [hroot, List.cons_prefix_cons] at hprefix
  have hprev := hboth.1.2
  rw [h hprefix.1.symm] at hprev
  cases hprev

theorem render_guarded {f : Str → Str} {prev : Option Char} {u : Str} (h : Guarded prev u)
    (s : Str) : render f (pieces (outboundCut v.realRoot) prev (u ++ s)) =
      u ++ render f (pieces (outboundCut v.realRoot) (u.getLast?.or prev) s) := by
  induction u generalizing prev with
  | nil => rfl
  | cons c u ih =>
    rw [List.cons_append, pieces_kept (outboundCut_eq_zero h.1), render, ih h.2, List.cons_append]
    congr 4
    cases u with
    | nil => rfl
    | cons d u => rw [List.getLast?_cons_cons, List.getLast?_cons, Option.some_or, Option.some_or]

theorem slash_inToken (a : Char) (h : (a == '/') = true) : inToken a = true := by
  rw [inToken, h, Bool.true_or]

/-- The scanner on the way out shows each token of the scanner on the way in. -/
theorem render_outbound (prev : Option Char) (s : Str)
    (h : ∀ t ∈ tokens (pieces inboundCut prev s), GuestPath v t) :
    render (fun _ => visibleRoot) (pieces (outboundCut v.realRoot) prev s) =
      render v.toModelVisible (pieces inboundCut prev s) := by
  induction prev, s using pieces.induct inboundCut with
  | case1 prev => rw [pieces, pieces, render, render]
  | case2 prev c s hcut ih =>
    rw [pieces_kept hcut] at h ⊢
    have hguard : c = '/' → prev.any isPathTokenChar = true := fun hc =>
      (runCut_cons_eq_zero_iff slash_inToken).1 hcut (beq_iff_eq.2 hc)
    rw [pieces_kept (outboundCut_eq_zero hguard), render, render, ih h]
  | case3 prev c s hcut ih =>
    obtain ⟨htake, hdrop⟩ := take_runCut hcut
    rw [pieces_token (List.cons_ne_nil c s) hcut] at h ⊢
    rw [tokens, List.forall_mem_cons] at h
    unfold inboundCut at h ih ⊢
    rw [htake, hdrop] at h ih ⊢
    obtain ⟨hguest, hrest⟩ := h
    have hsplit : c :: s = (c :: s).takeWhile inToken ++ (c :: s).dropWhile inToken :=
      List.takeWhile_append_dropWhile.symm
    have hrun : ∀ a ∈ (c :: s).takeWhile inToken, inToken a = true :=
      fun a ha => List.mem_takeWhile_imp ha
    have hstops : Stops inToken ((c :: s).dropWhile inToken) := stops_dropWhile (c :: s)
    generalize (c :: s).takeWhile inToken = t at *
    generalize (c :: s).dropWhile inToken = s' at *
    obtain ⟨parts, slash, hplain, hslash, rfl⟩ := guestPath_iff.1 hguest
    have hbelow := below_head parts hslash
    have hguarded : Guarded v.realRoot.getLast? (below parts ++ slash) := by
      obtain ⟨last, hlast, hne, hmem⟩ := realRoot_last v
      refine guarded_below hplain hslash (fun a ha => ?_) ?_
      · exact hrun a (List.mem_append_right _ (List.mem_append_left _ ha))
      · have htok := hrun last (List.mem_append_left _ hmem)
        rw [inToken, Bool.or_eq_true, beq_iff_eq] at htok
        rw [hlast]
        exact htok.resolve_left hne
    have hprev : prev.any isPathTokenChar = false := by
      by_contra hblocked
      rw [Bool.not_eq_false] at hblocked
      refine hcut ((runCut_cons_eq_zero_iff slash_inToken).2 fun _ => hblocked)
    have hout : outboundCut v.realRoot prev (c :: s) = v.realRoot.length := by
      rw [hsplit, List.append_assoc, outboundCut, List.drop_left, hprev]
      have hstarts : startsWith (v.realRoot ++ (below parts ++ slash ++ s')) v.realRoot = true :=
        List.isPrefixOf_iff_prefix.2 ⟨_, rfl⟩
      have hafter : (below parts ++ slash ++ s').head?.any isPathTokenChar = false := by
        obtain hnil | hhead := hbelow
        · rw [hnil, List.nil_append]
          cases s' with
          | nil => rfl
          | cons d s' =>
            have hd := hstops d rfl
            rw [inToken, Bool.or_eq_false_iff] at hd
            exact hd.2
        · obtain ⟨u, hu⟩ := List.head?_eq_some_iff.1 hhead
          rw [hu]
          rfl
      rw [hstarts, hafter]
      rfl
    have hne : outboundCut v.realRoot prev (c :: s) ≠ 0 := by
      rw [hout]
      exact fun h => realRoot_ne_empty v (List.length_eq_zero_iff.1 h)
    rw [pieces_token (List.cons_ne_nil c s) hne, render, render, hout, hsplit, List.append_assoc,
      List.take_left, List.drop_left, render_guarded hguarded, toModelVisible_append hbelow,
      ← List.getLast?_append, ih hrest]
    exact (List.append_assoc _ _ _).symm

theorem visibleRoot_inToken : ∀ a ∈ visibleRoot, inToken a = true :=
  List.all_eq_true.1 (by decide)

/-- What comes back for the tokens of a text are runs of token characters again. -/
theorem back_inToken {t : Str} (h : GuestPath v t) (ht : ∀ a ∈ t, inToken a = true) :
    ∀ a ∈ v.toGuest (v.toModelVisible t), inToken a = true := by
  obtain ⟨rest, hg, hshown, ⟨-, heq⟩ | ⟨-, ⟨-, hvisible⟩ | ⟨rest', hrest, hshort⟩⟩⟩ :=
    toGuest_visible h
  · rw [heq]
    exact ht
  · rw [hvisible]
    intro a ha
    cases List.mem_append.1 ha with
    | inl hroot => exact visibleRoot_inToken a hroot
    | inr hr => exact ht a (hg ▸ List.mem_append_right _ hr)
  · rw [hshort]
    intro a ha
    cases List.mem_append.1 ha with
    | inl hroot => exact ht a (hg ▸ List.mem_append_left _ hroot)
    | inr hr => exact ht a (hg ▸ hrest ▸ List.mem_append_right _ (List.mem_append_right _ hr))

theorem tokens_inToken {prev : Option Char} {s t : Str}
    (h : t ∈ tokens (pieces inboundCut prev s)) : ∀ a ∈ t, inToken a = true := by
  induction prev, s using pieces.induct inboundCut with
  | case1 prev =>
    rw [pieces] at h
    cases h
  | case2 prev c s hcut ih =>
    rw [pieces_kept hcut] at h
    exact ih h
  | case3 prev c s hcut ih =>
    rw [pieces_token (List.cons_ne_nil c s) hcut, tokens] at h
    cases List.mem_cons.1 h with
    | inl heq =>
      rw [heq, inboundCut, (take_runCut hcut).1]
      exact fun a ha => List.mem_takeWhile_imp ha
    | inr hrest => exact ih hrest

/-- A guest path comes back exactly when its visible form is below the visible root only, and a
text of guest paths exactly when that is so for each of them. -/
theorem shown_comes_back_iff (v : PathVirtualization) (g text : Str) (hg : GuestPath v g)
    (htext : ∀ t ∈ tokens (pieces inboundCut none text), GuestPath v t) :
    (v.toGuest (v.toModelVisible g) = g ↔ Distinct v g) ∧
      ((v.rewriteTextOutbound text).bind v.rewriteTextInbound = some text ↔
        ∀ t ∈ tokens (pieces inboundCut none text), Distinct v t) := by
  refine ⟨toGuest_toModelVisible_iff hg, ?_⟩
  rw [rewriteTextOutbound_eq, Option.bind_some, rewriteTextInbound_eq,
    render_outbound none text htext, Option.some.injEq]
  have hvisible : ∀ t ∈ tokens (pieces inboundCut none text),
      (∀ a ∈ v.toModelVisible t, inToken a = true) ∧
        (v.toModelVisible t).head?.any (· == '/') = true := by
    intro t ht
    obtain ⟨rest, hrest, hshown, -⟩ := toGuest_visible (htext t ht)
    rw [hshown]
    refine ⟨fun a ha => ?_, by rfl⟩
    cases List.mem_append.1 ha with
    | inl hroot => exact visibleRoot_inToken a hroot
    | inr hr => exact tokens_inToken ht a (hrest ▸ List.mem_append_right _ hr)
  rw [inboundCut, render_render slash_inToken _ none text hvisible,
    render_eq_self_iff slash_inToken none text fun t ht =>
      back_inToken (htext t ht) (tokens_inToken ht)]
  exact forall₂_congr fun t ht => toGuest_toModelVisible_iff (htext t ht)

def conversation : PathVirtualization := ⟨"/workspace/conv".toList, by decide⟩

theorem shown_comes_back_readme :
    conversation.toGuest (conversation.toModelVisible "/workspace/conv/README.md".toList) =
      "/workspace/conv/README.md".toList := by
  refine (shown_comes_back_iff conversation _ [] ⟨by decide, by decide⟩ ?_).1.2
    (Or.inr ⟨by decide, by decide⟩)
  intro t ht
  rw [pieces] at ht
  cases ht

/-- A file of the session below a directory that is called as the alias is. -/
theorem artifacts_come_back_elsewhere :
    tryFromSessionRoot "/workspace/conv".toList = some conversation ∧
      GuestPath conversation "/workspace/conv/artifacts/a".toList ∧
      conversation.toGuest (conversation.toModelVisible "/workspace/conv/artifacts/a".toList) =
        "/workspace/conv/a".toList ∧
      conversation.toGuest (conversation.toModelVisible "/workspace/conv/artifacts/a".toList) ≠
        "/workspace/conv/artifacts/a".toList :=
  ⟨by decide, ⟨by decide, by decide⟩, by decide, by decide⟩

end Texts

end GrokBuild.Workspace
