import GrokBuild.Permission.UrlPath

/-!
# Dot segments of a pattern path

A pattern path has its dot segments resolved so that it scopes to what the URL parser makes of the
same path. The parser works on the list of segments; the pattern side joins what is left and puts a
slash at its end when there is none.
-/

namespace GrokBuild.Permission
open Text

/-! ## The pattern side -/

/-- `path.contains("/.")`. -/
def containsSlashDot : Str → Bool
  | [] => false
  | c :: rest => (c == '/' && rest.head? == some '.') || containsSlashDot rest

def isDotSegment (segment : Str) : Bool := segment == ['.'] || segment == ['.', '.']

/-- One segment of the loop; the first one stands for the leading slash and is not popped. -/
def resolveSegment (out : List Str) (segment : Str) : List Str :=
  if segment = ['.'] then out
  else if segment = ['.', '.'] then (if out.length > 1 then out.dropLast else out)
  else out ++ [segment]

def resolvePatternDotSegments (path : Str) : Str :=
  if !containsSlashDot path then path
  else
    let endsDir := (splitOnChar '/' path).getLast?.any isDotSegment
    let joined := joinOnChar '/' ((splitOnChar '/' path).foldl resolveSegment [])
    let joined := if joined.isEmpty then ['/'] else joined
    if endsDir && !endsWith joined ['/'] then joined ++ ['/'] else joined

def needsEncoding (b : UInt8) : Bool :=
  0x80 ≤ b || b < 0x20 || [0x20, 0x22, 0x23, 0x3c, 0x3e, 0x60, 0x7b, 0x7d, 0x7f].contains b

def hexDigit (n : ℕ) : Char := upperDigit n

def encodeByte (b : UInt8) : Str :=
  if needsEncoding b then ['%', hexDigit (b.toNat / 16), hexDigit (b.toNat % 16)]
  else [Char.ofNat b.toNat]

/-- The bytes of the path, those that the URL parser escapes as escapes. -/
def encodePatternPath (path : Str) : Str :=
  if (encode path).any needsEncoding then (encode path).flatMap encodeByte else path

def canonicalizePatternPath (path : Str) : Str :=
  encodePatternPath (resolvePatternDotSegments (decodeUnreservedEscapes path))

inductive AllowPath (Glob : Type*)
  | any
  | glob (pattern : Glob)
  | never

/-- The grant of a canonical path; `compile` is `glob::Pattern::new`. -/
def AllowPath.new {Glob : Type*} (compile : Str → Option Glob) (canonical : Str) : AllowPath Glob :=
  if canonical.isEmpty || canonical == ['/'] then .any
  else
    match compile canonical with
    | some pattern => .glob pattern
    | none => .never

/-! ## The URL side -/

/-- The path state of the URL parser on a segment that is not the last one. -/
def pathStep (path : List Str) (segment : Str) : List Str :=
  if segment = ['.'] then path
  else if segment = ['.', '.'] then path.dropLast
  else path ++ [segment]

/-- The path state on the segments of a path: a last dot segment leaves an empty one. -/
def pathState (path : List Str) : List Str → List Str
  | [] => path
  | [last] => if isDotSegment last then pathStep path last ++ [[]] else path ++ [last]
  | segment :: segments => pathState (pathStep path segment) segments

def serializePath (path : List Str) : Str := path.flatMap ('/' :: ·)

/-- The segments behind the leading slash. -/
def pathSegments (path : Str) : List Str := (splitOnChar '/' path).tail

def urlPath (path : Str) : Str := serializePath (pathState [] (pathSegments path))

/-- A last dot segment follows, once the dot segments are resolved, an empty segment. -/
def DotAfterEmpty (path : Str) : Prop :=
  (pathSegments path).getLast?.any isDotSegment = true ∧
    ((pathSegments path).foldl pathStep []).getLast? = some []

/-- The pattern is resolved as a URL is, and it matches every path only if it resolves to the root
or is no path at all. -/
def ResolvesAsUrl (path : Str) : Prop :=
  resolvePatternDotSegments path = urlPath path ∧
    ∀ {Glob : Type} (compile : Str → Option Glob),
      AllowPath.new compile (encodePatternPath (resolvePatternDotSegments path)) = .any →
        urlPath path = [] ∨ urlPath path = ['/']

/-! ## Segments and their text -/

section Segments

variable {P segments : List Str} {segment path q : Str}

theorem serializePath_splitOnChar (q : Str) : serializePath (splitOnChar '/' q) = '/' :: q := by
  have hjoin := @joinOnChar_splitOnChar '/' ('/' :: q)
  rwa [splitOnChar_sep, joinOnChar_cons_eq] at hjoin

theorem serializePath_append (P Q : List Str) :
    serializePath (P ++ Q) = serializePath P ++ serializePath Q :=
  List.flatMap_append

theorem serializePath_eq_nil_iff : serializePath P = [] ↔ P = [] := by
  cases P with
  | nil => exact ⟨fun _ => rfl, fun _ => rfl⟩
  | cons x P => exact ⟨nofun, nofun⟩

/-- A path that does not end in an empty segment does not end in a slash. -/
theorem endsWith_serializePath_concat (P : List Str) (h : '/' ∉ segment) :
    endsWith (serializePath (P ++ [segment])) ['/'] = segment.isEmpty := by
  have hlast : serializePath [segment] = '/' :: segment := List.append_nil _
  rw [serializePath_append, hlast, Bool.eq_iff_iff, endsWith, List.isSuffixOf_iff_suffix,
    List.isEmpty_iff]
  constructor
  · rintro ⟨t, ht⟩
    obtain rfl | ⟨u, c, rfl⟩ := List.eq_nil_or_concat segment
    · rfl
    · rw [List.concat_eq_append, ← List.cons_append, ← List.append_assoc] at ht
      obtain ⟨-, hc⟩ := List.append_inj' ht rfl
      cases hc
      rw [List.concat_eq_append] at h
      exact absurd List.mem_concat_self h
  · rintro rfl
    exact List.suffix_append _ ['/']

/-- The pattern side does to its list what the URL side does, behind the leading slash. -/
theorem foldl_resolveSegment (segments P : List Str) :
    segments.foldl resolveSegment ([] :: P) = [] :: segments.foldl pathStep P := by
  induction segments generalizing P with
  | nil => rfl
  | cons segment segments ih =>
    have hstep : resolveSegment ([] :: P) segment = [] :: pathStep P segment := by
      unfold resolveSegment pathStep
      by_cases hone : segment = ['.']
      · rw [if_pos hone, if_pos hone]
      · by_cases htwo : segment = ['.', '.']
        · rw [if_neg hone, if_neg hone, if_pos htwo, if_pos htwo]
          cases P with
          | nil => rfl
          | cons x P => rfl
        · rw [if_neg hone, if_neg hone, if_neg htwo, if_neg htwo]
          rfl
    rw [List.foldl_cons, hstep, ih, List.foldl_cons]

theorem pathStep_of_not_dot (h : isDotSegment segment = false) (P : List Str) :
    pathStep P segment = P ++ [segment] := by
  rw [isDotSegment, Bool.or_eq_false_iff, beq_eq_false_iff_ne, beq_eq_false_iff_ne] at h
  rw [pathStep, if_neg h.1, if_neg h.2]

theorem pathState_eq (hne : segments ≠ []) (P : List Str) :
    pathState P segments = segments.foldl pathStep P ++
      if segments.getLast?.any isDotSegment then [[]] else [] := by
  induction segments generalizing P with
  | nil => exact absurd rfl hne
  | cons segment segments ih =>
    cases segments with
    | nil =>
      rw [pathState, List.foldl_cons, List.foldl_nil, List.getLast?_singleton, Option.any_some]
      cases hdot : isDotSegment segment with
      | true => rfl
      | false =>
        rw [pathStep_of_not_dot hdot, if_neg Bool.false_ne_true, if_neg Bool.false_ne_true,
          List.append_nil]
    | cons next segments =>
      rw [pathState, ih (List.cons_ne_nil next segments), List.getLast?_cons_cons,
        List.foldl_cons (l := next :: segments)]
      exact nofun

theorem mem_foldl_pathStep {x : Str} (h : x ∈ segments.foldl pathStep P) :
    x ∈ P ∨ x ∈ segments := by
  induction segments generalizing P with
  | nil => exact .inl h
  | cons segment segments ih =>
    rw [List.foldl_cons] at h
    obtain h | h := ih h
    · unfold pathStep at h
      split at h
      · exact .inl h
      · split at h
        · exact .inl (List.dropLast_subset P h)
        · obtain h | h := List.mem_append.mp h
          · exact .inl h
          · rw [List.mem_singleton.mp h]
            exact .inr (List.mem_cons_self ..)
    · exact .inr (List.mem_cons_of_mem _ h)

theorem foldl_pathStep_plain (h : ∀ segment ∈ segments, isDotSegment segment = false)
    (P : List Str) : segments.foldl pathStep P = P ++ segments := by
  induction segments generalizing P with
  | nil => exact (List.append_nil P).symm
  | cons segment segments ih =>
    rw [List.forall_mem_cons] at h
    rw [List.foldl_cons, pathStep_of_not_dot h.1, ih h.2, List.append_assoc,
      List.singleton_append]

/-- Without a dot behind a slash no segment starts with a dot. -/
theorem isDotSegment_of_not_contains (h : containsSlashDot ('/' :: q) = false) :
    ∀ segment ∈ splitOnChar '/' q, isDotSegment segment = false := by
  have hdot {c : Char} {t : Str} (hc : c ≠ '.') : isDotSegment (c :: t) = false := by
    simp [isDotSegment, hc]
  have key : ∀ q : Str, containsSlashDot q = false →
      (∀ segment ∈ (splitOnChar '/' q).tail, isDotSegment segment = false) ∧
        (q.head? ≠ some '.' → ∀ segment ∈ splitOnChar '/' q, isDotSegment segment = false) := by
    intro q
    induction q with
    | nil => exact fun _ => ⟨nofun, fun _ => by decide⟩
    | cons c q ih =>
      intro hcontains
      rw [containsSlashDot, Bool.or_eq_false_iff] at hcontains
      obtain ⟨hhere, hrest⟩ := hcontains
      obtain ⟨htail, hall⟩ := ih hrest
      by_cases hc : c = '/'
      · subst hc
        have hhead : q.head? ≠ some '.' := by
          rw [beq_self_eq_true, Bool.true_and, beq_eq_false_iff_ne] at hhere
          exact hhere
        rw [splitOnChar_sep, List.tail_cons, List.forall_mem_cons]
        exact ⟨hall hhead, fun _ => ⟨rfl, hall hhead⟩⟩
      · have hne : (c == '/') = false := beq_eq_false_iff_ne.mpr hc
        obtain ⟨x, rest, hsplit⟩ := List.exists_cons_of_ne_nil (splitOnChar_ne_nil '/' q)
        rw [hsplit, List.tail_cons] at htail
        rw [splitOnChar, hne, if_neg Bool.false_ne_true, hsplit]
        dsimp only
        rw [List.tail_cons, List.forall_mem_cons]
        refine ⟨htail, fun hhead => ⟨hdot ?_, htail⟩⟩
        rintro rfl
        exact hhead rfl
  rw [containsSlashDot, Bool.or_eq_false_iff, beq_self_eq_true, Bool.true_and,
    beq_eq_false_iff_ne] at h
  exact (key q h.2).2 h.1

end Segments

/-! ## When both sides agree -/

section Agree

variable {q : Str}

theorem pathSegments_cons (q : Str) : pathSegments ('/' :: q) = splitOnChar '/' q := by
  rw [pathSegments, splitOnChar_sep, List.tail_cons]

theorem urlPath_cons (q : Str) :
    urlPath ('/' :: q) = serializePath ((splitOnChar '/' q).foldl pathStep []) ++
      if (splitOnChar '/' q).getLast?.any isDotSegment then ['/'] else [] := by
  rw [urlPath, pathSegments_cons, pathState_eq (splitOnChar_ne_nil '/' q), serializePath_append]
  split
  · rfl
  · rfl

theorem resolve_of_contains (h : containsSlashDot ('/' :: q) = true) :
    resolvePatternDotSegments ('/' :: q) =
      let joined := serializePath ((splitOnChar '/' q).foldl pathStep [])
      let joined := if joined.isEmpty then ['/'] else joined
      if (splitOnChar '/' q).getLast?.any isDotSegment && !endsWith joined ['/'] then
        joined ++ ['/']
      else joined := by
  have hfold : (splitOnChar '/' ('/' :: q)).foldl resolveSegment [] =
      [] :: (splitOnChar '/' q).foldl pathStep [] := by
    rw [splitOnChar_sep]
    exact foldl_resolveSegment (splitOnChar '/' q) []
  have hlast : (splitOnChar '/' ('/' :: q)).getLast? = (splitOnChar '/' q).getLast? := by
    obtain ⟨x, rest, hsplit⟩ := List.exists_cons_of_ne_nil (splitOnChar_ne_nil '/' q)
    rw [splitOnChar_sep, hsplit, List.getLast?_cons_cons]
  rw [resolvePatternDotSegments, h, hfold, hlast, joinOnChar_cons_eq]
  rfl

theorem resolve_of_not_contains (h : containsSlashDot ('/' :: q) = false) :
    resolvePatternDotSegments ('/' :: q) = urlPath ('/' :: q) ∧ ¬ DotAfterEmpty ('/' :: q) := by
  have hplain := isDotSegment_of_not_contains h
  have hlast : (splitOnChar '/' q).getLast?.any isDotSegment = false := by
    rw [Option.any_eq_false_iff_get]
    intro hsome
    exact Bool.not_eq_true _ ▸ hplain _ (List.mem_of_getLast? (Option.some_get hsome).symm)
  constructor
  · rw [resolvePatternDotSegments, h, urlPath_cons, hlast, foldl_pathStep_plain hplain,
      List.nil_append, serializePath_splitOnChar, if_neg Bool.false_ne_true, List.append_nil]
    rfl
  · rintro ⟨hdot, -⟩
    rw [pathSegments_cons, hlast] at hdot
    cases hdot

theorem slash_not_mem_resolved {x : Str} (h : x ∈ (splitOnChar '/' q).foldl pathStep []) :
    '/' ∉ x := by
  obtain h | h := mem_foldl_pathStep h
  · cases h
  · exact not_mem_of_mem_splitOnChar h

theorem resolve_eq_urlPath_iff (q : Str) :
    resolvePatternDotSegments ('/' :: q) = urlPath ('/' :: q) ↔ ¬ DotAfterEmpty ('/' :: q) := by
  cases hcontains : containsSlashDot ('/' :: q) with
  | false =>
    obtain ⟨heq, hdot⟩ := resolve_of_not_contains hcontains
    exact ⟨fun _ => hdot, fun _ => heq⟩
  | true =>
    rw [resolve_of_contains hcontains, urlPath_cons, DotAfterEmpty, pathSegments_cons]
    have hmem := @slash_not_mem_resolved q
    have hpushed : (splitOnChar '/' q).getLast?.any isDotSegment = false →
        (splitOnChar '/' q).foldl pathStep [] ≠ [] := by
      obtain ⟨before, last, hsplit⟩ :=
        (List.eq_nil_or_concat (splitOnChar '/' q)).resolve_left (splitOnChar_ne_nil '/' q)
      rw [hsplit, List.concat_eq_append, List.getLast?_concat, Option.any_some, List.foldl_append,
        List.foldl_cons, List.foldl_nil]
      intro hlast
      rw [pathStep_of_not_dot hlast]
      exact List.append_ne_nil_of_right_ne_nil _ (List.cons_ne_nil last [])
    generalize (splitOnChar '/' q).foldl pathStep [] = resolved at hmem hpushed
    cases hlast : (splitOnChar '/' q).getLast?.any isDotSegment with
    | false =>
      have hne : (serializePath resolved).isEmpty = false := by
        rw [List.isEmpty_eq_false_iff, ne_eq, serializePath_eq_nil_iff]
        exact hpushed hlast
      simp [hne]
    | true =>
      obtain rfl | ⟨before, last, rfl⟩ := List.eq_nil_or_concat resolved
      · simp [serializePath, endsWith]
      · rw [List.concat_eq_append] at hmem ⊢
        have hends := endsWith_serializePath_concat before (hmem (List.mem_concat_self))
        have hne : serializePath (before ++ [last]) ≠ [] := by
          rw [ne_eq, serializePath_eq_nil_iff]
          exact List.append_ne_nil_of_right_ne_nil _ (List.cons_ne_nil last [])
        -- a slash is added unless the last segment left is empty
        generalize serializePath (before ++ [last]) = text at hends hne
        by_cases hempty : last = []
        · subst hempty
          simp [hne, hends]
        · rw [List.isEmpty_eq_false_iff.mpr hempty] at hends
          simp [hne, hends, hempty]

theorem encodePatternPath_root {path : Str}
    (h : encodePatternPath path = [] ∨ encodePatternPath path = ['/']) :
    path = [] ∨ path = ['/'] := by
  unfold encodePatternPath at h
  split at h
  · rename_i hany
    obtain ⟨b, hb, hneeds⟩ := List.any_eq_true.mp hany
    have hpercent : '%' ∈ (encode path).flatMap encodeByte := by
      rw [List.mem_flatMap]
      refine ⟨b, hb, ?_⟩
      rw [encodeByte, if_pos hneeds]
      exact List.mem_cons_self ..
    obtain h | h := h
    · rw [h] at hpercent
      cases hpercent
    · rw [h, List.mem_singleton] at hpercent
      exact absurd hpercent (by decide)
  · exact h

theorem AllowPath.any_of_new {Glob : Type*} {compile : Str → Option Glob} {path : Str}
    (h : AllowPath.new compile path = .any) : path = [] ∨ path = ['/'] := by
  unfold AllowPath.new at h
  split at h
  · rename_i hroot
    rw [Bool.or_eq_true, List.isEmpty_iff, beq_iff_eq] at hroot
    exact hroot
  · split at h
    · cases h
    · cases h

/-- A pattern path is resolved as a URL is exactly when no last dot segment follows an empty
segment. -/
theorem resolvePatternDotSegments_iff (path : Str) (h : path = [] ∨ startsWith path ['/'] = true) :
    ResolvesAsUrl path ↔ ¬ DotAfterEmpty path := by
  have hroot (heq : resolvePatternDotSegments path = urlPath path) : ResolvesAsUrl path := by
    refine ⟨heq, fun compile hany => ?_⟩
    rw [← heq]
    exact encodePatternPath_root (AllowPath.any_of_new hany)
  obtain rfl | h := h
  · refine ⟨fun _ => ?_, fun _ => hroot rfl⟩
    rintro ⟨hdot, -⟩
    cases hdot
  · rw [startsWith, List.isPrefixOf_iff_prefix] at h
    obtain ⟨q, rfl⟩ := h
    have hiff := resolve_eq_urlPath_iff q
    exact ⟨fun hresolves => hiff.mp hresolves.1, fun hdot => hroot (hiff.mpr hdot)⟩

/-- `/x/../admin/.` resolves to `/admin/`. -/
theorem dotted_admin_resolves : ResolvesAsUrl "/x/../admin/.".toList :=
  (resolvePatternDotSegments_iff _ (.inr (by decide))).mpr fun h => absurd h.2 (by decide)

/-- The pattern `//.` matches every path; the URL parser leaves `//` of it. -/
theorem double_slash_dot_matches_all :
    ¬ ∀ path : Str, path = [] ∨ startsWith path ['/'] = true → ResolvesAsUrl path := by
  intro h
  obtain ⟨heq, -⟩ := h "//.".toList (.inr (by decide))
  revert heq
  decide

end Agree

end GrokBuild.Permission
