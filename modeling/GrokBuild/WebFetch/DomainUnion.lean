import GrokBuild.Text.Slices
import GrokBuild.WebFetch.Domain
import Mathlib.Data.List.Forall2

/-!
# The allowlist is the union of its entries

The fold admits what one of its entries admits as it is read. An entry without a misspelling is read
as what it means.
-/

namespace GrokBuild.WebFetch

open Text Lowercase

variable {L : Lowercase} {raw host path s t : Str} {rawEntries : List Str} {entries : HostEntries}

/-! ## One entry after the other -/

/-- What a map lets a host serve. -/
def Serves (entries : HostEntries) (host path : Str) : Prop :=
  match entries host with
  | none => False
  | some .anyPath => True
  | some (.pathPrefixes prefixes) => ∃ p ∈ prefixes, path = p ∨ p ++ ['/'] <+: path

theorem pathMatches_iff (path p : Str) :
    pathMatches path p = true ↔ path = p ∨ p ++ ['/'] <+: path := by
  unfold pathMatches startsWith
  rw [Bool.or_eq_true, Bool.and_eq_true, beq_iff_eq, beq_iff_eq, List.isPrefixOf_iff_prefix]
  refine or_congr Iff.rfl ?_
  constructor
  · rintro ⟨⟨rest, rfl⟩, hnext⟩
    rw [List.getElem?_append_right (Nat.le_refl _), Nat.sub_self] at hnext
    cases rest with
    | nil => cases hnext
    | cons c rest =>
      obtain rfl : c = '/' := Option.some.inj hnext
      exact ⟨rest, List.append_assoc p ['/'] rest⟩
  · rintro ⟨rest, rfl⟩
    rw [List.append_assoc]
    refine ⟨List.prefix_append _ _, ?_⟩
    rw [List.getElem?_append_right (Nat.le_refl _), Nat.sub_self]
    rfl

theorem serves_insert_anyPath (entries : HostEntries) (host' host path : Str) :
    Serves (insertEntry entries host' .anyPath) host path ↔
      Serves entries host path ∨ host' = host := by
  unfold Serves insertEntry
  by_cases h : host' = host
  · subst h
    rw [Function.update_self]
    exact iff_of_true trivial (.inr rfl)
  · rw [Function.update_of_ne (Ne.symm h), or_iff_left h]

theorem serves_of_anyPath (hany : entries host = some .anyPath) : Serves entries host path := by
  rw [Serves, hany]
  trivial

/-- A new prefix is added to those of its host. -/
theorem serves_addPathPrefix (entries : HostEntries) (host' p host path : Str) :
    Serves (addPathPrefix entries host' p) host path ↔
      Serves entries host path ∨ (host' = host ∧ (path = p ∨ p ++ ['/'] <+: path)) := by
  by_cases h : host' = host
  swap
  · have hother : addPathPrefix entries host' p host = entries host := by
      have hupdate : ∀ entry, insertEntry entries host' entry host = entries host :=
        fun entry => Function.update_of_ne (Ne.symm h) _ _
      unfold addPathPrefix
      cases entries host' with
      | none => exact hupdate _
      | some entry =>
        cases entry with
        | anyPath => rfl
        | pathPrefixes prefixes =>
          dsimp only
          split_ifs
          · rfl
          · exact hupdate _
    rw [Serves, hother, ← Serves, or_iff_left (fun h' => h h'.1)]
  subst h
  rw [and_iff_right rfl]
  unfold addPathPrefix insertEntry
  split
  · next hany => exact iff_of_true (serves_of_anyPath hany) (.inl (serves_of_anyPath hany))
  · next prefixes hentry =>
    have hserves : Serves entries host' path ↔ ∃ q ∈ prefixes, path = q ∨ q ++ ['/'] <+: path := by
      rw [Serves, hentry]
    split_ifs with hmem
    · rw [hserves]
      exact (or_iff_left_of_imp fun hp => ⟨p, hmem, hp⟩).symm
    · rw [hserves, Serves, Function.update_self]
      simp only [List.mem_append, List.mem_singleton, or_and_right, exists_or, exists_eq_left]
  · next hnone =>
    rw [Serves, Serves, hnone, Function.update_self, false_or]
    simp only [List.mem_singleton, exists_eq_left]

theorem pathPart_cons (h : pathPart s ≠ []) : ∃ rest, pathPart s = '/' :: rest := by
  unfold pathPart at h ⊢
  induction s with
  | nil => exact absurd rfl h
  | cons c s ih =>
    rw [List.dropWhile_cons] at h ⊢
    split_ifs at h ⊢ with hc
    · exact ih h
    · obtain rfl : c = '/' := by simpa using hc
      exact ⟨s, rfl⟩

/-- The rest of a text that starts with a slash still does, unless nothing is left. -/
theorem trimEnd_rooted (rest : Str) :
    trimEndMatches (· == '/') ('/' :: rest) = [] ∨
      ∃ c rest', trimEndMatches (· == '/') ('/' :: rest) = '/' :: c :: rest' := by
  have hprefix := List.rdropWhile_prefix (· == '/') ('/' :: rest)
  unfold trimEndMatches
  cases h : List.rdropWhile (· == '/') ('/' :: rest) with
  | nil => exact .inl rfl
  | cons c rest' =>
    right
    rw [h, List.cons_prefix_cons] at hprefix
    obtain ⟨rfl, -⟩ := hprefix
    cases rest' with
    | cons d rest' => exact ⟨d, rest', rfl⟩
    | nil =>
      have hlast := List.rdropWhile_last_not (· == '/') ('/' :: rest) (h ▸ List.cons_ne_nil _ _)
      simp [h] at hlast

/-- One entry adds what it admits. -/
theorem serves_addEntry (entries : HostEntries) (raw host path : Str) :
    Serves (addEntry L entries raw) host path ↔
      Serves entries host path ∨ ∃ r ∈ readAs L raw, r.Admits host path := by
  unfold addEntry readAs
  dsimp only
  split_ifs with hnil hhost
  · exact (or_iff_left (by rintro ⟨r, hr, -⟩; cases hr)).symm
  · rw [serves_insert_anyPath, hhost]
    refine or_congr Iff.rfl ?_
    constructor
    · exact fun h => ⟨_, rfl, h, .inl rfl⟩
    · rintro ⟨r, hr, hadmits⟩
      cases hr
      exact hadmits.1
  · obtain ⟨rest, hrest⟩ := pathPart_cons hhost
    have hread : (∃ r ∈ some (⟨hostPart (normalizeDomain L raw), trimEndMatches (· == '/')
        (pathPart (normalizeDomain L raw))⟩ : Reading), r.Admits host path) ↔
        hostPart (normalizeDomain L raw) = host ∧
          (trimEndMatches (· == '/') ('/' :: rest) = [] ∨
            (path = trimEndMatches (· == '/') ('/' :: rest) ∨
              trimEndMatches (· == '/') ('/' :: rest) ++ ['/'] <+: path)) := by
      rw [← hrest]
      constructor
      · rintro ⟨r, hr, hadmits⟩
        cases hr
        exact hadmits
      · exact fun h => ⟨_, rfl, h⟩
    rw [hread, hrest]
    unfold addRawPath
    dsimp only
    obtain hnone | ⟨c, rest', hmore⟩ := trimEnd_rooted rest
    · -- nothing but slashes behind the host
      have hempty : ([] : Str) = [] ∨ ([] : Str) = ['/'] := .inl rfl
      rw [hnone, if_pos hempty]
      split_ifs with hany
      · refine (or_iff_left_of_imp ?_).symm
        rintro ⟨rfl, -⟩
        exact serves_of_anyPath hany
      · rw [serves_insert_anyPath]
        exact or_congr Iff.rfl (and_iff_left (.inl rfl)).symm
    · have hslash : ¬ ('/' :: c :: rest' = [] ∨ '/' :: c :: rest' = ['/']) := by simp
      have hstart : startsWith ('/' :: c :: rest') ['/'] = true := rfl
      rw [hmore, if_neg hslash, if_pos hstart, or_iff_right (List.cons_ne_nil _ _)]
      split_ifs with hany
      · refine (or_iff_left_of_imp ?_).symm
        rintro ⟨rfl, -⟩
        exact serves_of_anyPath hany
      · rw [serves_addPathPrefix]

theorem serves_fold (rawEntries : List Str) (entries : HostEntries) (host path : Str) :
    Serves (rawEntries.foldl (addEntry L) entries) host path ↔
      Serves entries host path ∨ ∃ raw ∈ rawEntries, ∃ r ∈ readAs L raw, r.Admits host path := by
  induction rawEntries generalizing entries with
  | nil => simp
  | cons raw rawEntries ih =>
    rw [List.foldl_cons, ih, serves_addEntry, List.exists_mem_cons_iff, or_assoc]

/-- In any order the entries together serve what one of them admits. -/
theorem serves_domainMatcher (rawEntries : List Str) (host path : Str) :
    Serves (domainMatcher L rawEntries) host path ↔
      ∃ raw ∈ rawEntries, ∃ r ∈ readAs L raw, r.Admits host path := by
  have hempty : ¬ Serves (fun _ => none) host path := id
  rw [domainMatcher, serves_fold, or_iff_right hempty]

/-! ## The decision -/

theorem stripWww_suffix : stripWww s <:+ s := by
  unfold stripWww stripPrefix
  split_ifs
  · exact List.drop_suffix _ _
  · exact List.suffix_refl _

/-- A parsed host has no case, no blanks and no slashes. -/
theorem normalizeDomain_host (url : ParsedUrl) {rawHost : Str} (h : url.host = some rawHost) :
    normalizeDomain L rawHost = stripWww (trimEndMatches (· == '.') rawHost) := by
  have hplain := url.host_plain rawHost h
  have htrim : trim rawHost = rawHost :=
    trim_eq_self (fun c hc => (hplain c (List.mem_of_mem_head? hc)).2.2.2)
      fun c hc => (hplain c (List.mem_of_getLast? hc)).2.2.2
  have hslash : trimEndMatches (· == '/') rawHost = rawHost := by
    rw [trimEndMatches, List.rdropWhile_eq_self_iff]
    intro hne hlast
    exact (hplain _ (List.getLast_mem hne)).2.2.1 (beq_iff_eq.mp hlast)
  rw [normalizeDomain, htrim, hslash, lower_eq_self]
  intro c hc
  have hmem : c ∈ rawHost :=
    (List.rdropWhile_prefix _ _).subset ((stripWww_suffix).subset hc)
  exact ⟨(hplain c hmem).1, (hplain c hmem).2.1⟩

theorem check_eq_none_iff (rawEntries : List Str) (url : ParsedUrl) :
    check L (domainMatcher L rawEntries) url = none ↔ Admitted L rawEntries url := by
  unfold check Admitted
  cases hhost : url.host with
  | none => exact iff_of_false nofun (by rintro ⟨_, h, -⟩; cases h)
  | some rawHost =>
    have hserves := serves_domainMatcher (L := L) rawEntries (normalizeDomain L rawHost)
      (L.lower url.path)
    rw [normalizeDomain_host url hhost] at hserves
    simp only [Option.mem_some_iff, exists_eq_left', normalizeDomain_host url hhost]
    rw [← hserves, Serves]
    cases domainMatcher L rawEntries (stripWww (trimEndMatches (· == '.') rawHost)) with
    | none => exact iff_of_false nofun id
    | some entry =>
      cases entry with
      | anyPath => exact iff_of_true rfl trivial
      | pathPrefixes prefixes =>
        dsimp only
        have hany : prefixes.any (pathMatches (L.lower url.path)) = true ↔
            ∃ p ∈ prefixes, L.lower url.path = p ∨ p ++ ['/'] <+: L.lower url.path := by
          rw [List.any_eq_true]
          exact exists_congr fun p => and_congr Iff.rfl (pathMatches_iff _ _)
        rw [← hany]
        split_ifs with hmatch
        · exact iff_of_true rfl hmatch
        · exact iff_of_false nofun hmatch

/-! ## Reading an entry -/

theorem stripWww_www (s : Str) : stripWww ('w' :: 'w' :: 'w' :: '.' :: s) = s := rfl

theorem eq_www_append (h : s.take 4 = ['w', 'w', 'w', '.']) :
    ∃ rest, s = 'w' :: 'w' :: 'w' :: '.' :: rest :=
  ⟨s.drop 4, by rw [← List.take_append_drop 4 s, h]; rfl⟩

theorem startsWith_www (s : Str) :
    startsWith s ['w', 'w', 'w', '.'] = true ↔ s.take 4 = ['w', 'w', 'w', '.'] := by
  unfold startsWith
  rw [List.isPrefixOf_iff_prefix, List.prefix_iff_eq_take]
  exact eq_comm

theorem stripWww_of_take_ne (h : s.take 4 ≠ ['w', 'w', 'w', '.']) : stripWww s = s := by
  have hstart : ¬ startsWith s ['w', 'w', 'w', '.'] = true := fun hs => h ((startsWith_www s).mp hs)
  rw [stripWww, stripPrefix, if_neg hstart]
  rfl

/-- A prefix that is there in lower case stays there, and no other becomes one. -/
theorem lowers_stripWww (h : L.Lowers s t)
    (hplain : toAsciiLowercase (s.take 4) = ['w', 'w', 'w', '.'] →
      s.take 4 = ['w', 'w', 'w', '.']) :
    L.Lowers (stripWww s) (stripWww t) := by
  by_cases ht : t.take 4 = ['w', 'w', 'w', '.']
  · obtain ⟨t', rfl⟩ := eq_www_append ht
    obtain ⟨c₁, s₁, rfl, h₁, hs₁⟩ := h.of_cons (.inr (.inr rfl))
    obtain ⟨c₂, s₂, rfl, h₂, hs₂⟩ := hs₁.of_cons (.inr (.inr rfl))
    obtain ⟨c₃, s₃, rfl, h₃, hs₃⟩ := hs₂.of_cons (.inr (.inr rfl))
    obtain ⟨c₄, s', rfl, h₄, hs'⟩ := hs₃.of_cons (.inr (.inl rfl))
    have htake := hplain (congrArg₂ List.cons h₁ (congrArg₂ List.cons h₂
      (congrArg₂ List.cons h₃ (congrArg₂ List.cons h₄ rfl))))
    obtain ⟨s'', hs''⟩ := eq_www_append htake
    obtain rfl : s' = s'' := congrArg (List.drop 4) hs''
    rw [hs'', stripWww_www, stripWww_www]
    exact hs'
  · have hs : s.take 4 ≠ ['w', 'w', 'w', '.'] := by
      intro hs
      obtain ⟨s', rfl⟩ := eq_www_append hs
      obtain ⟨u₁, v₁, rfl, h₁, hv₁⟩ := h.uncons
      obtain ⟨u₂, v₂, rfl, h₂, hv₂⟩ := hv₁.uncons
      obtain ⟨u₃, v₃, rfl, h₃, hv₃⟩ := hv₂.uncons
      obtain ⟨u₄, v₄, rfl, h₄, -⟩ := hv₃.uncons
      rw [h₁.ascii (by decide), h₂.ascii (by decide), h₃.ascii (by decide),
        h₄.ascii (by decide)] at ht
      exact ht rfl
    rw [stripWww_of_take_ne ht, stripWww_of_take_ne hs]
    exact h

theorem hostPart_append_pathPart (s : Str) : hostPart s ++ pathPart s = s :=
  List.takeWhile_append_dropWhile

/-- The prefix of the whole is that of the host. -/
theorem parts_stripWww (s : Str) :
    hostPart (stripWww s) = stripWww (hostPart s) ∧ pathPart (stripWww s) = pathPart s := by
  by_cases h : s.take 4 = ['w', 'w', 'w', '.']
  · obtain ⟨rest, rfl⟩ := eq_www_append h
    exact ⟨rfl, rfl⟩
  · have hhost : (hostPart s).take 4 ≠ ['w', 'w', 'w', '.'] := by
      intro hw
      obtain ⟨rest, hrest⟩ := eq_www_append hw
      refine h ?_
      rw [← hostPart_append_pathPart s, hrest]
      rfl
    rw [stripWww_of_take_ne h, stripWww_of_take_ne hhost]
    exact ⟨rfl, rfl⟩

theorem lowers_parts (h : L.Lowers s t) :
    L.Lowers (hostPart s) (hostPart t) ∧ L.Lowers (pathPart s) (pathPart t) :=
  h.takeUntil (caseBlind_separator L (.inl rfl))

/-- Two lowerings of one reading admit the same ASCII texts. -/
theorem admits_of_lowers {hostText pathText readHost readHost' readPath readPath' : Str}
    (hhost : L.Lowers hostText readHost) (hhost' : L.Lowers hostText readHost')
    (hpath : L.Lowers pathText readPath) (hpath' : L.Lowers pathText readPath')
    (hostAscii : IsAscii host) (pathAscii : IsAscii path) :
    (Reading.mk readHost readPath).Admits host path →
      (Reading.mk readHost' readPath').Admits host path := by
  rintro ⟨rfl, hserved⟩
  refine ⟨hhost.unique hostAscii hhost', ?_⟩
  obtain hnil | rfl | ⟨rest, rfl⟩ := hserved
  · exact .inl (hpath'.eq_nil_iff.mpr (hpath.eq_nil_iff.mp hnil))
  · exact .inr (.inl (hpath.unique pathAscii hpath').symm)
  · have hascii : IsAscii readPath :=
      (List.forall_mem_append.mp (List.forall_mem_append.mp pathAscii).1).1
    have hsame := hpath.unique hascii hpath'
    exact .inr (.inr ⟨rest, by rw [hsame]⟩)

theorem trimEnd_eq_self {d : Char} (h : s.getLast? ≠ some d) :
    trimEndMatches (· == d) s = s := by
  rw [trimEndMatches, List.rdropWhile_eq_self_iff]
  intro hne hlast
  rw [beq_iff_eq] at hlast
  exact h (by rw [List.getLast?_eq_some_getLast hne, hlast])

theorem getLast?_trimEnd (d : Char) (s : Str) : (trimEndMatches (· == d) s).getLast? ≠ some d := by
  intro h
  have hne : trimEndMatches (· == d) s ≠ [] := by
    rintro hnil
    rw [hnil] at h
    cases h
  have hnot := List.rdropWhile_last_not (· == d) s hne
  rw [List.getLast?_eq_some_getLast hne, Option.some.injEq] at h
  exact hnot (beq_iff_eq.mpr h)

theorem parts_of_not_mem (h : '/' ∉ s) : hostPart s = s ∧ pathPart s = [] := by
  have hall : ∀ c ∈ s, (!(c == '/')) = true := by
    intro c hc
    rw [Bool.not_eq_true', beq_eq_false_iff_ne]
    rintro rfl
    exact h hc
  exact ⟨List.takeWhile_eq_self_iff.mpr hall, List.dropWhile_eq_nil_iff.mpr hall⟩

theorem getLast?_pathPart (h : '/' ∈ s) : (pathPart s).getLast? = s.getLast? := by
  have hne : pathPart s ≠ [] := by
    intro hnil
    have hall := List.dropWhile_eq_nil_iff.mp hnil '/' h
    exact Bool.false_ne_true hall
  conv_rhs => rw [← hostPart_append_pathPart s]
  rw [List.getLast?_append_of_ne_nil _ hne]

/-- Trimming the whole is trimming the host, unless dots stand where they should not. -/
theorem parts_of_plain (h : ¬ Misspelled raw) :
    hostPart (trimEndMatches (· == '.') (trimmedEntry raw)) =
        trimEndMatches (· == '.') (hostPart (trimmedEntry raw)) ∧
      trimEndMatches (· == '/') (pathPart (trimEndMatches (· == '.') (trimmedEntry raw))) =
        pathPart (trimmedEntry raw) := by
  unfold Misspelled at h
  by_cases hmem : '/' ∈ trimmedEntry raw
  · obtain ⟨hhost, hlast⟩ := not_or.mp fun hdots => h (.inr ⟨hmem, hdots⟩)
    rw [trimEnd_eq_self hlast, trimEnd_eq_self hhost]
    refine ⟨rfl, trimEnd_eq_self ?_⟩
    rw [getLast?_pathPart hmem]
    exact getLast?_trimEnd '/' (trim raw)
  · have hmem' : '/' ∉ trimEndMatches (· == '.') (trimmedEntry raw) :=
      fun h' => hmem ((List.rdropWhile_prefix _ _).subset h')
    rw [(parts_of_not_mem hmem').1, (parts_of_not_mem hmem').2, (parts_of_not_mem hmem).1,
      (parts_of_not_mem hmem).2]
    exact ⟨rfl, rfl⟩

theorem stripWww_eq_nil_iff (h : s.getLast? ≠ some '.') : stripWww s = [] ↔ s = [] := by
  by_cases hw : s.take 4 = ['w', 'w', 'w', '.']
  · obtain ⟨rest, rfl⟩ := eq_www_append hw
    rw [stripWww_www]
    refine iff_of_false ?_ (List.cons_ne_nil _ _)
    rintro rfl
    exact h rfl
  · rw [stripWww_of_take_ne hw]

theorem take_of_isPrefix ( hprefix : s <+: t) (word : Str)
    (h : toAsciiLowercase (s.take word.length) = word) :
    s.take word.length = t.take word.length := by
  obtain ⟨rest, rfl⟩ := hprefix
  have hlen := congrArg List.length h
  rw [toAsciiLowercase, List.length_map, List.length_take] at hlen
  rw [List.take_append_of_le_length (by omega)]

/-- The host that an entry without capitals in `www.` means. -/
theorem www_of_plain (h : ¬ Misspelled raw)
    (hlower : toAsciiLowercase ((trimEndMatches (· == '.') (hostPart (trimmedEntry raw))).take 4) =
      ['w', 'w', 'w', '.']) :
    (trimEndMatches (· == '.') (hostPart (trimmedEntry raw))).take 4 = ['w', 'w', 'w', '.'] := by
  have hprefix : trimEndMatches (· == '.') (hostPart (trimmedEntry raw)) <+: trimmedEntry raw :=
    (List.rdropWhile_prefix _ _).trans (List.takeWhile_prefix _)
  have htake : (trimEndMatches (· == '.') (hostPart (trimmedEntry raw))).take 4 =
      (trimmedEntry raw).take 4 := take_of_isPrefix hprefix ['w', 'w', 'w', '.'] hlower
  rw [htake] at hlower ⊢
  by_contra hne
  exact h (.inl ⟨hlower, hne⟩)

/-- An entry without a misspelling is read as what it means. -/
theorem admits_iff_of_plain (h : ¬ Misspelled raw) (hhost : IsAscii host) (hpath : IsAscii path) :
    (∃ r ∈ readAs L raw, r.Admits host path) ↔ ∃ r ∈ declares L raw, r.Admits host path := by
  have hslash := caseBlind_separator L (.inl rfl)
  have hdot := caseBlind_separator L (.inr rfl)
  have hentry : L.Lowers (trimmedEntry raw) (trimmedEntry (L.lower raw)) :=
    (lowers_lower raw).trim.trimEndMatches hslash
  have hundotted := hentry.trimEndMatches hdot
  obtain ⟨hhostEq, hpathEq⟩ := parts_of_plain h
  obtain ⟨hhostStrip, hpathStrip⟩ := parts_stripWww
    (trimEndMatches (· == '.') (trimmedEntry raw))
  have hnormalized : L.Lowers (stripWww (trimEndMatches (· == '.') (trimmedEntry raw)))
      (normalizeDomain L raw) := lowers_lower _
  have hnil : normalizeDomain L raw = [] ↔
      trimEndMatches (· == '.') (trimmedEntry (L.lower raw)) = [] := by
    rw [hnormalized.eq_nil_iff, hundotted.eq_nil_iff,
      stripWww_eq_nil_iff (getLast?_trimEnd '.' _)]
  -- both readings lower the same host and the same path
  obtain ⟨hreadHost, hreadPath⟩ := lowers_parts hnormalized
  have hreadPath := hreadPath.trimEndMatches hslash
  obtain ⟨hdeclHost, hdeclPath⟩ := lowers_parts hentry
  have hdeclHost := lowers_stripWww (hdeclHost.trimEndMatches hdot) (www_of_plain h)
  rw [hhostStrip, hhostEq] at hreadHost
  rw [hpathStrip, hpathEq] at hreadPath
  unfold readAs declares
  dsimp only
  by_cases hempty : normalizeDomain L raw = []
  · rw [if_pos hempty, if_pos (hnil.mp hempty)]
  · rw [if_neg hempty, if_neg (fun h' => hempty (hnil.mpr h'))]
    simp only [Option.mem_some_iff, exists_eq_left']
    exact ⟨admits_of_lowers hreadHost hdeclHost hreadPath hdeclPath hhost hpath,
      admits_of_lowers hdeclHost hreadHost hdeclPath hreadPath hhost hpath⟩

/-! ## The union -/

theorem lower_ascii (h : IsAscii s) : IsAscii (L.lower s) := by
  have hascii : ∀ c : Char, c.toNat < 128 → c.toLower.toNat < 128 := by
    have hall : ∀ n < 128, (Char.ofNat n).toLower.toNat < 128 := by decide
    intro c hc
    have hthis := hall c.toNat hc
    rwa [Char.ofNat_toNat] at hthis
  have hlowers := lowers_lower (L := L) s
  generalize L.lower s = t at hlowers ⊢
  induction hlowers with
  | nil => exact nofun
  | cons hc _ ih =>
    obtain ⟨hfirst, hrest⟩ := List.forall_mem_cons.mp h
    rw [hc.ascii hfirst]
    exact List.forall_mem_cons.mpr ⟨hascii _ hfirst, ih hrest⟩

theorem urlHost_ascii (url : ParsedUrl) {rawHost : Str} (h : rawHost ∈ url.host) :
    IsAscii (stripWww (trimEndMatches (· == '.') rawHost)) := fun c hc =>
  (url.host_plain rawHost h c
    ((List.rdropWhile_prefix _ _).subset ((stripWww_suffix).subset hc))).1

/-- Misspelled entries neither open nor close the URL by themselves. -/
def MisspellingsDecideNothing (L : Lowercase) (rawEntries : List Str) (url : ParsedUrl) : Prop :=
  (Admitted L (rawEntries.filter fun raw => Misspelled raw) url → Declared L rawEntries url) ∧
    (Declared L (rawEntries.filter fun raw => Misspelled raw) url → Admitted L rawEntries url)

theorem admitted_mono {rawEntries' : List Str} (h : rawEntries ⊆ rawEntries') {url : ParsedUrl} :
    Admitted L rawEntries url → Admitted L rawEntries' url := by
  rintro ⟨rawHost, hhost, raw, hraw, hr⟩
  exact ⟨rawHost, hhost, raw, h hraw, hr⟩

theorem declared_mono {rawEntries' : List Str} (h : rawEntries ⊆ rawEntries') {url : ParsedUrl} :
    Declared L rawEntries url → Declared L rawEntries' url := by
  rintro ⟨rawHost, hhost, raw, hraw, hr⟩
  exact ⟨rawHost, hhost, raw, h hraw, hr⟩

theorem admitted_iff_declared (rawEntries : List Str) (url : ParsedUrl) :
    (Admitted L rawEntries url ↔ Declared L rawEntries url) ↔
      MisspellingsDecideNothing L rawEntries url := by
  have hsub : (rawEntries.filter fun raw => Misspelled raw) ⊆ rawEntries :=
    fun _ => List.mem_of_mem_filter
  constructor
  · intro h
    exact ⟨fun hadmitted => h.mp (admitted_mono hsub hadmitted),
      fun hdeclared => h.mpr (declared_mono hsub hdeclared)⟩
  · rintro ⟨hopen, hclose⟩
    have hplain : ∀ raw, ¬ Misspelled raw → ∀ rawHost ∈ url.host,
        ((∃ r ∈ readAs L raw, r.Admits (stripWww (trimEndMatches (· == '.') rawHost))
            (L.lower url.path)) ↔
          ∃ r ∈ declares L raw, r.Admits (stripWww (trimEndMatches (· == '.') rawHost))
            (L.lower url.path)) := fun raw hraw rawHost hhost =>
      admits_iff_of_plain hraw (urlHost_ascii url hhost) (lower_ascii url.path_ascii)
    constructor
    · rintro ⟨rawHost, hhost, raw, hraw, hr⟩
      by_cases hmis : Misspelled raw
      · exact hopen ⟨rawHost, hhost, raw,
          List.mem_filter.mpr ⟨hraw, decide_eq_true hmis⟩, hr⟩
      · exact ⟨rawHost, hhost, raw, hraw, (hplain raw hmis rawHost hhost).mp hr⟩
    · rintro ⟨rawHost, hhost, raw, hraw, hr⟩
      by_cases hmis : Misspelled raw
      · exact hclose ⟨rawHost, hhost, raw,
          List.mem_filter.mpr ⟨hraw, decide_eq_true hmis⟩, hr⟩
      · exact ⟨rawHost, hhost, raw, hraw, (hplain raw hmis rawHost hhost).mpr hr⟩

/-- The same meaning in other cases. -/
theorem declared_recased {rawEntries' : List Str}
    (h : List.Forall₂ (fun raw raw' => L.lower raw = L.lower raw') rawEntries rawEntries')
    {url : ParsedUrl} : Declared L rawEntries url → Declared L rawEntries' url := by
  rintro ⟨rawHost, hhost, raw, hraw, hr⟩
  induction h with
  | nil => cases hraw
  | @cons raw₁ raw₂ _ _ hcase _ ih =>
    obtain rfl | hraw := List.mem_cons.mp hraw
    · refine ⟨rawHost, hhost, raw₂, List.mem_cons_self, ?_⟩
      rw [declares, ← hcase]
      exact hr
    · exact declared_mono (List.subset_cons_self _ _) (ih hraw)

/-- Two lists block a URL in the same words. -/
theorem check_eq_of_iff {entries entries' : HostEntries} {url : ParsedUrl}
    (h : check L entries url = none ↔ check L entries' url = none) :
    check L entries url = check L entries' url := by
  have hblocked : ∀ entries, check L entries url = none ∨
      check L entries url = some ⟨url.host.elim [] (normalizeDomain L)⟩ := by
    intro entries
    unfold check
    cases url.host with
    | none => exact .inr rfl
    | some rawHost =>
      dsimp only
      split
      · exact .inl rfl
      · split_ifs
        · exact .inl rfl
        · exact .inr rfl
      · exact .inr rfl
  by_cases hnone : check L entries url = none
  · rw [hnone, h.mp hnone]
  · rw [(hblocked entries).resolve_left hnone,
      (hblocked entries').resolve_left fun h' => hnone (h.mpr h')]

/-- The decision is what an entry declares exactly if misspelled entries decide nothing. In any case
neither order nor repetition matters and no entry blocks what was allowed. -/
theorem allowlist_is_union_iff (L : Lowercase) (rawEntries : List Str) (url : ParsedUrl) :
    ((check L (domainMatcher L rawEntries) url = none ↔ Declared L rawEntries url) ↔
        MisspellingsDecideNothing L rawEntries url) ∧
      (∀ rawEntries' : List Str, (∀ raw, raw ∈ rawEntries' ↔ raw ∈ rawEntries) →
        check L (domainMatcher L rawEntries') url = check L (domainMatcher L rawEntries) url) ∧
      (∀ rawEntries' : List Str, rawEntries ⊆ rawEntries' →
        check L (domainMatcher L rawEntries) url = none →
          check L (domainMatcher L rawEntries') url = none) ∧
      (∀ rawEntries' : List Str,
        List.Forall₂ (fun raw raw' => L.lower raw = L.lower raw') rawEntries rawEntries' →
        MisspellingsDecideNothing L rawEntries url → MisspellingsDecideNothing L rawEntries' url →
          check L (domainMatcher L rawEntries') url =
            check L (domainMatcher L rawEntries) url) := by
  refine ⟨?_, ?_, ?_, ?_⟩
  · rw [check_eq_none_iff, admitted_iff_declared]
  · intro rawEntries' hsame
    apply check_eq_of_iff
    rw [check_eq_none_iff, check_eq_none_iff]
    exact ⟨admitted_mono fun raw hraw => (hsame raw).mp hraw,
      admitted_mono fun raw hraw => (hsame raw).mpr hraw⟩
  · intro rawEntries' hsub
    rw [check_eq_none_iff, check_eq_none_iff]
    exact admitted_mono hsub
  · intro rawEntries' hcase hplain hplain'
    apply check_eq_of_iff
    rw [check_eq_none_iff, check_eq_none_iff, (admitted_iff_declared _ _).mpr hplain,
      (admitted_iff_declared _ _).mpr hplain']
    exact ⟨declared_recased (hcase.flip.imp fun _ _ h => h.symm), declared_recased hcase⟩

/-- The tables of ASCII. -/
def asciiLowercase : Lowercase where
  map c := if c.toNat < 128 then [c.toLower] else [c]
  finalSigma _ _ := false
  ascii c hc := if_pos hc
  blank c hc := by
    split_ifs with hcode
    · have hall : ∀ n < 128, isWhitespace (Char.ofNat n) = true →
          (Char.ofNat n).toLower = Char.ofNat n := by decide
      have hthis := hall c.toNat hcode
      rw [Char.ofNat_toNat] at hthis
      rw [hthis hc]
    · rfl
  ne_nil c := by
    split_ifs
    · exact List.cons_ne_nil _ _
    · exact List.cons_ne_nil _ _
  other c hc d hd := by
    rw [if_neg (Nat.not_lt.mpr hc), List.mem_singleton] at hd
    subst hd
    refine ⟨?_, ?_, ?_⟩
    all_goals
      rintro rfl
      exact absurd hc (by decide)
  not_blank c hc d hd := by
    split_ifs at hd with hcode
    · have hall : ∀ n < 128, isWhitespace (Char.ofNat n) = false →
          isWhitespace (Char.ofNat n).toLower = false := by decide
      have hthis := hall c.toNat hcode
      rw [Char.ofNat_toNat] at hthis
      rw [List.mem_singleton.mp hd]
      exact hthis hc
    · rw [List.mem_singleton.mp hd]
      exact hc

def exampleUrl : ParsedUrl where
  host := some "www.example.com".toList
  path := ['/']
  host_plain := by
    intro h hh
    cases hh
    have hall : ("www.example.com".toList.all fun c => decide (c.toNat < 128 ∧ c.toLower = c ∧
        c ≠ '/' ∧ isWhitespace c = false)) = true := by decide
    exact fun c hc => of_decide_eq_true (List.all_eq_true.mp hall c hc)
  path_ascii := List.forall_mem_singleton.mpr (by decide)
  path_rooted := rfl

/-- Capitals in front of a host block it. -/
theorem capital_www_blocks :
    ¬ ∀ (L : Lowercase) (rawEntries : List Str) (url : ParsedUrl),
      check L (domainMatcher L rawEntries) url = none ↔ Declared L rawEntries url := by
  intro h
  have hdeclared : Declared asciiLowercase ["WWW.Example.com".toList] exampleUrl :=
    ⟨_, rfl, _, List.mem_cons_self, _, rfl, by decide⟩
  have hallowed := (h asciiLowercase ["WWW.Example.com".toList] exampleUrl).mpr hdeclared
  exact absurd hallowed (by decide)

end GrokBuild.WebFetch
