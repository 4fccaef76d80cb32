import GrokBuild.Permission.InlineShell

/-!
# The option scan of the shell

`shell_dash_c_script` reads a shell's options the way the shell does, except that it takes a
cluster with a glued `o` or `O` for a word of its own: the shell takes the next word for each of
these letters.
-/

namespace GrokBuild.Permission
open Text

/-- What a word is to the shell's own scan. -/
inductive BashWord
  | endMarker
  | operand
  | long (takesFile : Bool)
  | cluster (hasC : Bool) (operands : ℕ)
deriving DecidableEq

def clusterOperands (word : Str) : ℕ := (word.drop 1).countP fun c => c == 'o' || c == 'O'

def classifyBashWord (word : Str) : BashWord :=
  if word = "--".toList ∨ word = "-".toList then .endMarker
  else if startsWith word "--".toList then
    .long (["--init-file", "--rcfile"].any (·.toList == word))
  else if startsWith word "-".toList || startsWith word "+".toList then
    .cluster (startsWith word "-".toList && (word.drop 1).contains 'c') (clusterOperands word)
  else .operand

inductive BashScan
  | rejected
  | unknown
  | file
  | command (script : Option ℕ)
deriving DecidableEq

/-- The shell's scan from word `i` on, with `skip` words still to be taken as operands. A long
option behind a cluster is rejected; an untrusted word where an option may stand ends what is
known. -/
def bashScan (clustered hasC : Bool) : ℕ → ℕ → List ShellWord → BashScan
  | _, _, [] => if hasC then .command none else .file
  | skip + 1, i, _ :: rest => bashScan clustered hasC skip (i + 1) rest
  | 0, _, .untrusted :: _ => .unknown
  | 0, i, .literal word :: rest =>
    match classifyBashWord word with
    | .endMarker => if hasC then .command (if rest.isEmpty then none else some (i + 1)) else .file
    | .operand => if hasC then .command (some i) else .file
    | .long takesFile =>
      if clustered then .rejected
      else bashScan false hasC (if takesFile then 1 else 0) (i + 1) rest
    | .cluster c operands => bashScan true (hasC || c) operands (i + 1) rest

/-- The scan of an argv, behind its program. -/
def bashOptionScan (words : List ShellWord) : BashScan := bashScan false false 0 1 words.tail

/-- Some of the words are hidden. -/
def Masked : List ShellWord → List ShellWord → Prop :=
  List.Forall₂ fun word word' => word' = word ∨ word' = .untrusted

/-- The scan of an argv misses no script, names the one that the shell runs, and loses none when
words behind the program are hidden. Argvs that the shell rejects are left out. -/
structure ScanFaithful (words : List ShellWord) : Prop where
  noMiss : (∀ word ∈ words, word ≠ .untrusted) → ∀ script, bashOptionScan words = .command script →
    shellDashCScript words ≠ .notInline
  script : bashOptionScan words ≠ .rejected → ∀ i, shellDashCScript words = .literal i →
    bashOptionScan words = .command (some i)
  masked : ∀ words', words'.head? = words.head? → Masked words.tail words'.tail →
    shellDashCScript words ≠ .notInline → shellDashCScript words' ≠ .notInline

/-- A cluster with more than one letter that the scan passes over without the operands of its `o`
and `O`. -/
def isGluedCluster (word : Str) : Bool :=
  2 < word.length &&
    (startsWith word "-O".toList || (startsWith word "+".toList && clusterOperands word != 0))

/-- The words that the scan reads in front of the first glued cluster, if it comes to one; the first
`skip` are operands. -/
def firstGlued : ℕ → List ShellWord → Option ℕ
  | _, [] => none
  | skip + 1, _ :: rest => (firstGlued skip rest).map (· + 1)
  | 0, .untrusted :: _ => none
  | 0, .literal word :: rest =>
    if isGluedCluster word then some 0
    else
      match classifyShellOption word, rest.head? with
      | .skip, _ | .unmodeledLong, _ | .flags _, _ => (firstGlued 0 rest).map (· + 1)
      | .fileOption, some (.literal _) => (firstGlued 1 rest).map (· + 1)
      | .setOption, some (.literal value) =>
        if startsWith value "-".toList then none else (firstGlued 1 rest).map (· + 1)
      | _, _ => none

/-! ## One word -/

/-- The two scans go on in the same way, or the first stops. -/
def sameOption : ShellOption → BashWord → Bool
  | .dashes, .endMarker => true
  | .operand, .operand => true
  | .fileOption, .long true => true
  | .setOption, .cluster false 1 => true
  | .skip, .long false => true
  | .skip, .cluster false 0 => true
  | .unmodeledLong, .long false => true
  | .ambiguous, _ => true
  | .flags hasC, .cluster hasC' 0 => hasC == hasC'
  | _, _ => false

theorem startsWith_cons (c d : Char) (s prefixRest : Str) :
    startsWith (c :: s) (d :: prefixRest) = (d == c && startsWith s prefixRest) := rfl

theorem startsWith_nil (s : Str) : startsWith s [] = true := rfl

theorem clusterOperands_eq_zero {word : Str}
    (h : ((word.drop 1).contains 'o' || (word.drop 1).contains 'O') = false) :
    clusterOperands word = 0 := by
  unfold clusterOperands
  rw [List.countP_eq_zero]
  intro c hc hco
  simp only [Bool.or_eq_false_iff, List.contains_eq_mem, decide_eq_false_iff_not] at h
  simp only [Bool.or_eq_true, beq_iff_eq] at hco
  rcases hco with rfl | rfl
  · exact h.1 hc
  · exact h.2 hc

theorem sameOption_long (s : Str) :
    sameOption (classifyShellOption ('-' :: '-' :: s)) (classifyBashWord ('-' :: '-' :: s)) = true := by
  by_cases hmarker : '-' :: '-' :: s = "--".toList
  · rw [hmarker]
    rfl
  by_cases hinit : '-' :: '-' :: s = "--init-file".toList
  · rw [hinit]
    rfl
  by_cases hrc : '-' :: '-' :: s = "--rcfile".toList
  · rw [hrc]
    rfl
  have hdash : '-' :: '-' :: s ≠ "-".toList := by simp
  have hd : startsWith ('-' :: '-' :: s) "--".toList = true := by simp [startsWith]
  have hd1 : startsWith ('-' :: '-' :: s) "-".toList = true := by simp [startsWith]
  have hlong : classifyBashWord ('-' :: '-' :: s) = .long false := by
    simp only [classifyBashWord, hmarker, hdash, or_self, if_false, hd, if_true, List.any_cons,
      List.any_nil, beq_eq_false_iff_ne.mpr (Ne.symm hinit), beq_eq_false_iff_ne.mpr (Ne.symm hrc),
      Bool.or_false]
  rw [hlong]
  simp only [classifyShellOption, beq_eq_false_iff_ne.mpr hmarker, beq_eq_false_iff_ne.mpr hdash,
    beq_eq_false_iff_ne.mpr hinit, beq_eq_false_iff_ne.mpr hrc, hd, hd1, Bool.or_self,
    Bool.false_eq_true, if_false, Bool.not_true, Bool.false_and, if_true]
  split
  · rfl
  · rfl

theorem classify_set {word : Str} (h : ["-o", "+o", "-O", "+O"].any (·.toList == word) = true) :
    sameOption (classifyShellOption word) (classifyBashWord word) = true := by
  simp only [List.any_cons, List.any_nil, Bool.or_false, Bool.or_eq_true, beq_iff_eq] at h
  obtain h | h | h | h := h
  · rw [← h]
    rfl
  · rw [← h]
    rfl
  · rw [← h]
    rfl
  · rw [← h]
    rfl

theorem sameOption_dash {d : Char} (hd : d ≠ '-') (s : Str)
    (h : isGluedCluster ('-' :: d :: s) = false) :
    sameOption (classifyShellOption ('-' :: d :: s)) (classifyBashWord ('-' :: d :: s)) = true := by
  by_cases hset : ["-o", "+o", "-O", "+O"].any (·.toList == '-' :: d :: s) = true
  · exact classify_set hset
  have hd' : ('-' == d) = false := beq_eq_false_iff_ne.mpr hd.symm
  have hdash : startsWith ('-' :: d :: s) "-".toList = true := by simp [startsWith_cons, startsWith_nil]
  have hplus : startsWith ('-' :: d :: s) "+".toList = false := by simp [startsWith_cons]
  have hlong : startsWith ('-' :: d :: s) "--".toList = false := by simp [startsWith_cons, hd']
  have hplusO : startsWith ('-' :: d :: s) "+O".toList = false := by simp [startsWith_cons]
  have hpluso : startsWith ('-' :: d :: s) "+o".toList = false := by simp [startsWith_cons]
  have hglued : (startsWith ('-' :: d :: s) "-O".toList && decide (2 < ('-' :: d :: s).length)) = false := by
    rw [isGluedCluster, hplus, Bool.false_and, Bool.or_false, Bool.and_comm] at h
    exact h
  have hmarker : ('-' :: d :: s == "--".toList) = false := by simp [hd]
  have hsingle : ('-' :: d :: s == "-".toList) = false := by simp
  have hinit : ('-' :: d :: s == "--init-file".toList) = false := by simp [hd]
  have hrc : ('-' :: d :: s == "--rcfile".toList) = false := by simp [hd]
  have hcluster : classifyBashWord ('-' :: d :: s) =
      .cluster ((d :: s).contains 'c') (clusterOperands ('-' :: d :: s)) := by
    simp only [classifyBashWord, beq_eq_false_iff_ne.mp hmarker, beq_eq_false_iff_ne.mp hsingle, or_self,
      if_false, hlong, hdash, Bool.false_eq_true, Bool.true_or, if_true, Bool.true_and, List.drop_one,
      List.tail_cons]
  rw [hcluster]
  simp only [classifyShellOption, hmarker, hsingle, hdash, hplus, hinit, hrc, hlong, hset, hglued, hplusO,
    hpluso, Bool.or_self, Bool.false_eq_true, if_false, Bool.not_true, Bool.false_and, List.drop_one,
    List.tail_cons]
  split
  · rfl
  split
  · rfl
  · rename_i ho
    have hzero : clusterOperands ('-' :: d :: s) = 0 :=
      clusterOperands_eq_zero (Bool.eq_false_iff.mpr ho)
    rw [hzero]
    exact beq_self_eq_true _

theorem sameOption_plus (s : Str) (h : isGluedCluster ('+' :: s) = false) :
    sameOption (classifyShellOption ('+' :: s)) (classifyBashWord ('+' :: s)) = true := by
  by_cases hset : ["-o", "+o", "-O", "+O"].any (·.toList == '+' :: s) = true
  · exact classify_set hset
  have hdash : startsWith ('+' :: s) "-".toList = false := by simp [startsWith_cons]
  have hplus : startsWith ('+' :: s) "+".toList = true := by simp [startsWith_cons, startsWith_nil]
  have hlong : startsWith ('+' :: s) "--".toList = false := by simp [startsWith_cons]
  have hO : startsWith ('+' :: s) "-O".toList = false := by simp [startsWith_cons]
  have ho : startsWith ('+' :: s) "-o".toList = false := by simp [startsWith_cons]
  have hmarker : ('+' :: s == "--".toList) = false := by simp
  have hsingle : ('+' :: s == "-".toList) = false := by simp
  have hinit : ('+' :: s == "--init-file".toList) = false := by simp
  have hrc : ('+' :: s == "--rcfile".toList) = false := by simp
  have hnone : clusterOperands ('+' :: s) = 0 := by
    by_contra hne
    have hlen : ('+' :: s).length ≤ 2 := by
      by_contra hlen
      rw [isGluedCluster, hplus, bne_iff_ne.mpr hne, decide_eq_true (by omega)] at h
      simp at h
    -- a single letter makes one of the words that are read with their operand
    match s, hlen with
    | [], _ => exact hne rfl
    | [c], _ =>
      obtain ⟨c', hmem, hc⟩ := List.countP_pos_iff.mp (Nat.pos_of_ne_zero hne)
      rw [List.mem_singleton.mp hmem] at hc
      simp only [Bool.or_eq_true, beq_iff_eq] at hc
      rcases hc with rfl | rfl
      · exact hset rfl
      · exact hset rfl
  have hcluster : classifyBashWord ('+' :: s) = .cluster false 0 := by
    simp only [classifyBashWord, beq_eq_false_iff_ne.mp hmarker, beq_eq_false_iff_ne.mp hsingle, or_self,
      if_false, hlong, hdash, hplus, Bool.false_eq_true, Bool.or_true, if_true, Bool.false_and, hnone]
  rw [hcluster]
  simp only [classifyShellOption, hmarker, hsingle, hdash, hplus, hinit, hrc, hlong, hset, hO, ho,
    Bool.or_self, Bool.false_eq_true, if_false, Bool.not_true, Bool.and_false, Bool.false_and, if_true,
    ite_self]
  rfl

theorem sameOption_operand {c : Char} (hdash : c ≠ '-') (hplus : c ≠ '+') (s : Str) :
    sameOption (classifyShellOption (c :: s)) (classifyBashWord (c :: s)) = true := by
  have hstart : startsWith (c :: s) "-".toList = false := by simp [startsWith_cons, hdash.symm]
  have hstart' : startsWith (c :: s) "+".toList = false := by simp [startsWith_cons, hplus.symm]
  have hlong : startsWith (c :: s) "--".toList = false := by simp [startsWith_cons, hdash.symm]
  have hmarker : (c :: s == "--".toList) = false := by simp [hdash]
  have hsingle : (c :: s == "-".toList) = false := by simp [hdash]
  simp only [classifyShellOption, classifyBashWord, beq_eq_false_iff_ne.mp hmarker,
    beq_eq_false_iff_ne.mp hsingle, hmarker, hsingle, hstart, hstart', hlong, or_self, if_false,
    Bool.or_self, Bool.false_eq_true, Bool.not_false, Bool.and_self, if_true]
  rfl

/-- Apart from the glued clusters the two scans read a word alike, or the first stops there. -/
theorem sameOption_classify {word : Str} (h : isGluedCluster word = false) :
    sameOption (classifyShellOption word) (classifyBashWord word) = true := by
  match word with
  | [] => rfl
  | c :: s =>
    by_cases hplus : c = '+'
    · subst hplus
      exact sameOption_plus s h
    by_cases hdash : c = '-'
    · subst hdash
      match s with
      | [] => rfl
      | d :: s =>
        by_cases hd : d = '-'
        · rw [hd]
          exact sameOption_long s
        · exact sameOption_dash hd s h
    · exact sameOption_operand hdash hplus s

/-! ## The scans in step -/

/-- A scan that finds no script among literal words, or finds one, ends as the shell's does. -/
def EndsAlike (words : List ShellWord) (code : InlineShellScript) (shell : BashScan) : Prop :=
  (code = .notInline → (∀ word ∈ words, word ≠ .untrusted) → shell = .file) ∧
    ∀ k, code = .literal k → shell = .command (some k)

theorem endsAlike_ambiguous (words : List ShellWord) (sawC : Bool) (shell : BashScan) :
    EndsAlike words (ambiguousOption sawC) shell := by
  constructor
  · intro h
    cases sawC <;> cases h
  · intro k h
    exact absurd h (ambiguousOption_ne_literal sawC k)

theorem endsAlike_withoutScript (words : List ShellWord) (unrecognized : Bool) :
    EndsAlike words (withoutScript unrecognized) .file :=
  ⟨fun _ _ => rfl, fun k h => absurd h (withoutScript_ne_literal unrecognized k)⟩

theorem endsAlike_literal (words : List ShellWord) (i : ℕ) :
    EndsAlike words (.literal i) (.command (some i)) := by
  constructor
  · intro h
    cases h
  · intro k h
    rw [InlineShellScript.literal.inj h]

theorem EndsAlike.mono {words words' : List ShellWord} {code : InlineShellScript} {shell : BashScan}
    (h : EndsAlike words code shell) (hsub : words ⊆ words') : EndsAlike words' code shell :=
  ⟨fun hcode hall => h.1 hcode fun word hw => hall word (hsub hw), h.2⟩

theorem bashScan_word (clustered hasC : Bool) (i : ℕ) (word : Str) (rest : List ShellWord) :
    bashScan clustered hasC 0 i (.literal word :: rest) =
      match classifyBashWord word with
      | .endMarker => if hasC then .command (if rest.isEmpty then none else some (i + 1)) else .file
      | .operand => if hasC then .command (some i) else .file
      | .long takesFile =>
        if clustered then .rejected
        else bashScan false hasC (if takesFile then 1 else 0) (i + 1) rest
      | .cluster c operands => bashScan true (hasC || c) operands (i + 1) rest := rfl

theorem isGluedCluster_of_firstGlued {word : Str} {rest : List ShellWord}
    (h : firstGlued 0 (.literal word :: rest) = none) : isGluedCluster word = false := by
  by_contra hglued
  rw [firstGlued, if_pos (Bool.eq_true_of_not_eq_false hglued)] at h
  cases h

/-- What a word is to the shell when the scan goes on behind it. -/
theorem classifyBashWord_of_same {word : Str} {option : ShellOption}
    (hglued : isGluedCluster word = false) (hclass : classifyShellOption word = option) :
    match option with
    | .dashes => classifyBashWord word = .endMarker
    | .operand => classifyBashWord word = .operand
    | .fileOption => classifyBashWord word = .long true
    | .setOption => classifyBashWord word = .cluster false 1
    | .skip => classifyBashWord word = .long false ∨ classifyBashWord word = .cluster false 0
    | .unmodeledLong => classifyBashWord word = .long false
    | .ambiguous => True
    | .flags hasC => classifyBashWord word = .cluster hasC 0 := by
  have hsame := sameOption_classify hglued
  rw [hclass] at hsame
  generalize classifyBashWord word = bashWord at hsame
  unfold sameOption at hsame
  split at hsame
  all_goals simp_all

/-- While the scan comes to no glued cluster it ends where the shell's ends. -/
theorem dashCScan_endsAlike {sawC unrecognized clustered : Bool} {i : ℕ} {words : List ShellWord}
    (hglued : firstGlued 0 words = none) (hscan : bashScan clustered sawC 0 i words ≠ .rejected) :
    EndsAlike words (dashCScan false i sawC unrecognized words) (bashScan clustered sawC 0 i words) := by
  have hunseen : ∀ {c : Bool}, ¬ c = true → c = false := fun h => Bool.eq_false_iff.mpr h
  fun_induction dashCScan false i sawC unrecognized words generalizing clustered with
  | case1 i unrecognized => exact endsAlike_ambiguous [] true _
  | case2 i sawC unrecognized hc =>
    rw [hunseen hc]
    exact endsAlike_withoutScript [] unrecognized
  | case3 i sawC unrecognized rest => exact endsAlike_ambiguous _ sawC _
  | case4 i sawC unrecognized word rest hclass hc =>
    have hbash := classifyBashWord_of_same (isGluedCluster_of_firstGlued hglued) hclass
    rw [bashScan_word, hbash, (by simpa using hc : sawC = false)]
    exact endsAlike_withoutScript _ unrecognized
  | case5 i sawC unrecognized word hclass hc value rest =>
    have hbash := classifyBashWord_of_same (isGluedCluster_of_firstGlued hglued) hclass
    have hsaw : sawC = true := by simpa using hc
    rw [bashScan_word, hbash, hsaw]
    exact endsAlike_literal _ (i + 1)
  | case6 i sawC unrecognized word rest hclass hc hnone => exact endsAlike_ambiguous _ true _
  | case7 i unrecognized word rest hclass =>
    have hbash := classifyBashWord_of_same (isGluedCluster_of_firstGlued hglued) hclass
    rw [bashScan_word, hbash]
    exact endsAlike_literal _ i
  | case8 i sawC unrecognized word rest hclass hc =>
    have hbash := classifyBashWord_of_same (isGluedCluster_of_firstGlued hglued) hclass
    rw [bashScan_word, hbash, hunseen hc]
    exact endsAlike_withoutScript _ unrecognized
  | case9 i sawC unrecognized word hclass value rest ih =>
    have hword := isGluedCluster_of_firstGlued hglued
    have hbash := classifyBashWord_of_same hword hclass
    simp only [firstGlued, hword, hclass, List.head?_cons, Bool.false_eq_true, if_false,
      Option.map_eq_none_iff] at hglued
    rw [bashScan_word, hbash] at hscan ⊢
    cases clustered with
    | true => exact absurd rfl hscan
    | false => exact (ih hglued hscan).mono (by simp)
  | case10 i sawC unrecognized word rest hclass hnone => exact endsAlike_ambiguous _ sawC _
  | case11 i sawC unrecognized word hclass value rest hdash => exact endsAlike_ambiguous _ sawC _
  | case12 i sawC unrecognized word hclass value rest hdash ih =>
    have hword := isGluedCluster_of_firstGlued hglued
    have hbash := classifyBashWord_of_same hword hclass
    simp only [firstGlued, hword, hclass, hdash, List.head?_cons, Bool.false_eq_true, if_false,
      Option.map_eq_none_iff] at hglued
    rw [bashScan_word, hbash] at hscan ⊢
    simp only [Bool.or_false] at hscan ⊢
    exact (ih hglued hscan).mono (by simp)
  | case13 i sawC unrecognized word rest hclass hnone => exact endsAlike_ambiguous _ sawC _
  | case14 i sawC unrecognized word rest hclass ih =>
    have hword := isGluedCluster_of_firstGlued hglued
    simp only [firstGlued, hword, hclass, Bool.false_eq_true, if_false, Option.map_eq_none_iff] at hglued
    obtain hbash | hbash := classifyBashWord_of_same hword hclass
    · rw [bashScan_word, hbash] at hscan ⊢
      cases clustered with
      | true => exact absurd rfl hscan
      | false => exact (ih hglued hscan).mono (by simp)
    · rw [bashScan_word, hbash] at hscan ⊢
      simp only [Bool.or_false] at hscan ⊢
      exact (ih hglued hscan).mono (by simp)
  | case15 i unrecognized word rest hclass => exact endsAlike_ambiguous _ true _
  | case16 i sawC unrecognized word rest hclass hc ih =>
    have hword := isGluedCluster_of_firstGlued hglued
    have hbash := classifyBashWord_of_same hword hclass
    simp only [firstGlued, hword, hclass, Bool.false_eq_true, if_false, Option.map_eq_none_iff] at hglued
    rw [bashScan_word, hbash] at hscan ⊢
    cases clustered with
    | true => exact absurd rfl hscan
    | false => exact (ih hglued hscan).mono (by simp)
  | case17 i sawC unrecognized word rest hclass => exact endsAlike_ambiguous _ sawC _
  | case18 i sawC unrecognized word rest hasC hclass ih =>
    have hword := isGluedCluster_of_firstGlued hglued
    have hbash := classifyBashWord_of_same hword hclass
    simp only [firstGlued, hword, hclass, Bool.false_eq_true, if_false, Option.map_eq_none_iff] at hglued
    rw [bashScan_word, hbash] at hscan ⊢
    exact (ih hglued hscan).mono (by simp)

theorem dashCScan_word (dynamicHead : Bool) (i : ℕ) (sawC unrecognized : Bool) (word : Str)
    (rest : List ShellWord) :
    dashCScan dynamicHead i sawC unrecognized (.literal word :: rest) =
      match classifyShellOption word with
      | .dashes =>
        if !sawC then withoutScript unrecognized
        else
          match rest with
          | .literal _ :: _ => finishLiteral dynamicHead (i + 1)
          | _ => .untrusted
      | .operand => if sawC then finishLiteral dynamicHead i else withoutScript unrecognized
      | .fileOption =>
        match rest with
        | .literal _ :: rest => dashCScan dynamicHead (i + 2) sawC unrecognized rest
        | _ => ambiguousOption sawC
      | .setOption =>
        match rest with
        | .literal value :: rest =>
          if startsWith value "-".toList then ambiguousOption sawC
          else dashCScan dynamicHead (i + 2) sawC unrecognized rest
        | _ => ambiguousOption sawC
      | .skip => dashCScan dynamicHead (i + 1) sawC unrecognized rest
      | .unmodeledLong => if sawC then .untrusted else dashCScan dynamicHead (i + 1) sawC true rest
      | .ambiguous => ambiguousOption sawC
      | .flags hasC => dashCScan dynamicHead (i + 1) (sawC || hasC) unrecognized rest :=
  dashCScan.eq_def _ _ _ _ _

/-! ## Hidden words -/

theorem Masked.literal {words rest' : List ShellWord} {word : Str}
    (h : Masked words (.literal word :: rest')) :
    ∃ rest, words = .literal word :: rest ∧ Masked rest rest' := by
  cases h with
  | cons hword hrest =>
    obtain rfl | h := hword
    · exact ⟨_, rfl, hrest⟩
    · cases h

/-- Words can only be hidden from a scan that ends the same way or finds more. -/
theorem dashCScan_masked {i : ℕ} {sawC unrecognized : Bool} {words words' : List ShellWord}
    (hmask : Masked words words') (h : dashCScan false i sawC unrecognized words' = .notInline) :
    dashCScan false i sawC unrecognized words = .notInline := by
  fun_induction dashCScan false i sawC unrecognized words' generalizing words with
  | case1 i unrecognized => cases h
  | case2 i sawC unrecognized hc =>
    cases hmask
    rw [dashCScan, if_neg hc]
    exact h
  | case3 i sawC unrecognized rest => cases sawC <;> cases h
  | case4 i sawC unrecognized word rest hclass hc =>
    obtain ⟨rest', rfl, hrest⟩ := hmask.literal
    simp only [dashCScan_word, hclass, hc, if_true]
    exact h
  | case5 i sawC unrecognized word hclass hc value rest => cases h
  | case6 i sawC unrecognized word rest hclass hc hnone => cases h
  | case7 i unrecognized word rest hclass => cases h
  | case8 i sawC unrecognized word rest hclass hc =>
    obtain ⟨rest', rfl, hrest⟩ := hmask.literal
    simp only [dashCScan_word, hclass, if_neg hc]
    exact h
  | case9 i sawC unrecognized word hclass value rest ih =>
    obtain ⟨rest', rfl, hrest⟩ := hmask.literal
    obtain ⟨rest'', rfl, hrest'⟩ := hrest.literal
    simp only [dashCScan_word, hclass]
    exact ih hrest' h
  | case10 i sawC unrecognized word rest hclass hnone => cases sawC <;> cases h
  | case11 i sawC unrecognized word hclass value rest hdash => cases sawC <;> cases h
  | case12 i sawC unrecognized word hclass value rest hdash ih =>
    obtain ⟨rest', rfl, hrest⟩ := hmask.literal
    obtain ⟨rest'', rfl, hrest'⟩ := hrest.literal
    simp only [dashCScan_word, hclass, if_neg hdash]
    exact ih hrest' h
  | case13 i sawC unrecognized word rest hclass hnone => cases sawC <;> cases h
  | case14 i sawC unrecognized word rest hclass ih =>
    obtain ⟨rest', rfl, hrest⟩ := hmask.literal
    simp only [dashCScan_word, hclass]
    exact ih hrest h
  | case15 i unrecognized word rest hclass => cases h
  | case16 i sawC unrecognized word rest hclass hc ih =>
    obtain ⟨rest', rfl, hrest⟩ := hmask.literal
    simp only [dashCScan_word, hclass, if_neg hc]
    exact ih hrest h
  | case17 i sawC unrecognized word rest hclass => cases sawC <;> cases h
  | case18 i sawC unrecognized word rest hasC hclass ih =>
    obtain ⟨rest', rfl, hrest⟩ := hmask.literal
    simp only [dashCScan_word, hclass]
    exact ih hrest h

/-! ## Behind a glued cluster -/

/-- A glued cluster is one word to the scan and takes operands in the shell. -/
theorem glued_skipped {word : Str} (h : isGluedCluster word = true) :
    classifyShellOption word = .skip ∧
      (∃ c, classifyBashWord word = .cluster c (clusterOperands word)) ∧ 0 < clusterOperands word := by
  have hcluster (word : Str) (h1 : word ≠ "--".toList) (h2 : word ≠ "-".toList)
      (h3 : ¬ startsWith word "--".toList = true)
      (h4 : (startsWith word "-".toList || startsWith word "+".toList) = true) :
      classifyBashWord word = .cluster (startsWith word "-".toList && (word.drop 1).contains 'c')
        (clusterOperands word) := by
    rw [classifyBashWord, if_neg (not_or.mpr ⟨h1, h2⟩), if_neg h3, if_pos h4]
  rw [isGluedCluster, Bool.and_eq_true, Bool.or_eq_true, decide_eq_true_eq] at h
  obtain ⟨hlen, h⟩ := h
  have hset : ["-o", "+o", "-O", "+O"].any (·.toList == word) = false := by
    rw [List.any_eq_false]
    intro option hmem heq
    rw [← beq_iff_eq.mp heq] at hlen
    simp only [List.mem_cons, List.not_mem_nil, or_false] at hmem
    rcases hmem with rfl | rfl | rfl | rfl
    all_goals simp at hlen
  match word with
  | [] => simp at hlen
  | [_] => simp at hlen
  | c :: d :: s =>
    obtain h | h := h
    · obtain ⟨rfl, rfl⟩ : '-' = c ∧ 'O' = d := by simpa [startsWith_cons, startsWith_nil] using h
      have hdash : startsWith ('-' :: 'O' :: s) "-".toList = true := by
        simp [startsWith_cons, startsWith_nil]
      refine ⟨?_, ⟨_, hcluster _ (by simp) (by simp) (by simp [startsWith_cons]) (by rw [hdash]; rfl)⟩, ?_⟩
      · simp only [classifyShellOption, hset, h, hdash, hlen, decide_true, Bool.and_self, if_true,
          Bool.not_true, Bool.false_and]
        simp [startsWith_cons]
      · exact List.countP_pos_iff.mpr ⟨'O', by simp, rfl⟩
    · rw [Bool.and_eq_true] at h
      obtain ⟨hstart, hcount⟩ := h
      obtain rfl : '+' = c := by simpa [startsWith_cons, startsWith_nil] using hstart
      have hdash : startsWith ('+' :: d :: s) "-".toList = false := by simp [startsWith_cons]
      refine ⟨?_, ⟨_, hcluster _ (by simp) (by simp) (by simp [startsWith_cons])
        (by rw [hstart, Bool.or_true])⟩, ?_⟩
      · simp only [classifyShellOption, hset, hstart, hdash, Bool.not_true, Bool.and_false]
        simp [startsWith_cons]
      · exact Nat.pos_of_ne_zero (bne_iff_ne.mp hcount)

/-- Both scans come through the first `j + 1` words whatever follows them, the last of which is a
glued cluster. -/
def ReachesGlued (sawC unrecognized clustered : Bool) (i j : ℕ) (words : List ShellWord) : Prop :=
  ∃ word sawC' unrecognized' hasC', isGluedCluster word = true ∧ ∀ tail,
    dashCScan false i sawC unrecognized (words.take (j + 1) ++ tail) =
        dashCScan false (i + j + 1) sawC' unrecognized' tail ∧
      bashScan clustered sawC 0 i (words.take (j + 1) ++ tail) =
        bashScan true hasC' (clusterOperands word) (i + j + 1) tail

theorem ReachesGlued.behind {sawC unrecognized clustered sawC' unrecognized' clustered' : Bool}
    {i j : ℕ} {rest : List ShellWord} (front : List ShellWord)
    (h : ReachesGlued sawC' unrecognized' clustered' (i + front.length) j rest)
    (hcode : ∀ tail, dashCScan false i sawC unrecognized (front ++ tail) =
      dashCScan false (i + front.length) sawC' unrecognized' tail)
    (hshell : ∀ tail, bashScan clustered sawC 0 i (front ++ tail) =
      bashScan clustered' sawC' 0 (i + front.length) tail) :
    ReachesGlued sawC unrecognized clustered i (j + front.length) (front ++ rest) := by
  obtain ⟨word, sawC'', unrecognized'', hasC'', hword, htail⟩ := h
  refine ⟨word, sawC'', unrecognized'', hasC'', hword, fun tail => ?_⟩
  have htake : (front ++ rest).take (j + front.length + 1) = front ++ rest.take (j + 1) := by
    rw [List.take_append, List.take_of_length_le (by omega)]
    congr 2
    omega
  have hindex : i + (j + front.length) + 1 = i + front.length + j + 1 := by omega
  rw [htake, List.append_assoc, hcode, hshell, hindex]
  exact htail tail

theorem scan_to_glued {sawC unrecognized clustered : Bool} {i j : ℕ} {words : List ShellWord}
    (hglued : firstGlued 0 words = some j) (hscan : bashScan clustered sawC 0 i words ≠ .rejected)
    (hc : sawC = true → clustered = true) : ReachesGlued sawC unrecognized clustered i j words := by
  have hplain {word : Str} {option : ShellOption} (hclass : classifyShellOption word = option)
      (hne : option ≠ .skip) : isGluedCluster word = false := by
    by_contra h
    exact hne (hclass.symm.trans (glued_skipped (Bool.eq_true_of_not_eq_false h)).1)
  fun_induction dashCScan false i sawC unrecognized words generalizing clustered j with
  | case1 i unrecognized => cases hglued
  | case2 i sawC unrecognized hsaw => cases hglued
  | case3 i sawC unrecognized rest => cases hglued
  | case4 i sawC unrecognized word rest hclass hsaw =>
    simp [firstGlued, hplain hclass, hclass] at hglued
  | case5 i sawC unrecognized word hclass hsaw value rest =>
    simp [firstGlued, hplain hclass, hclass] at hglued
  | case6 i sawC unrecognized word rest hclass hsaw hnone =>
    simp [firstGlued, hplain hclass, hclass] at hglued
  | case7 i unrecognized word rest hclass =>
    simp [firstGlued, hplain hclass, hclass] at hglued
  | case8 i sawC unrecognized word rest hclass hsaw =>
    simp [firstGlued, hplain hclass, hclass] at hglued
  | case9 i sawC unrecognized word hclass value rest ih =>
    have hbash := classifyBashWord_of_same (hplain hclass (by simp)) hclass
    simp only [firstGlued, hplain hclass (by simp), hclass, List.head?_cons, Bool.false_eq_true, if_false,
      Option.map_map, Option.map_eq_some_iff] at hglued
    obtain ⟨j, hj, rfl⟩ := hglued
    rw [bashScan_word, hbash] at hscan
    cases clustered with
    | true => exact absurd rfl hscan
    | false =>
      apply (ih hj hscan hc).behind [.literal word, .literal value]
      · intro tail
        rw [List.cons_append, dashCScan_word, hclass]
        rfl
      · intro tail
        rw [List.cons_append, bashScan_word, hbash]
        rfl
  | case10 i sawC unrecognized word rest hclass hnone =>
    cases rest with
    | nil => simp [firstGlued, hplain hclass, hclass] at hglued
    | cons value rest =>
      cases value with
      | untrusted => simp [firstGlued, hplain hclass, hclass] at hglued
      | literal value => exact absurd rfl (hnone value rest)
  | case11 i sawC unrecognized word hclass value rest hdash =>
    simp only [firstGlued, hplain hclass (by simp), hclass, List.head?_cons, hdash, if_true,
      Bool.false_eq_true, if_false] at hglued
    cases hglued
  | case12 i sawC unrecognized word hclass value rest hdash ih =>
    have hbash := classifyBashWord_of_same (hplain hclass (by simp)) hclass
    simp only [firstGlued, hplain hclass (by simp), hclass, List.head?_cons, hdash, Bool.false_eq_true,
      if_false, Option.map_map, Option.map_eq_some_iff] at hglued
    obtain ⟨j, hj, rfl⟩ := hglued
    rw [bashScan_word, hbash] at hscan
    simp only [Bool.or_false] at hscan
    apply (ih hj hscan fun _ => rfl).behind [.literal word, .literal value]
    · intro tail
      rw [List.cons_append, dashCScan_word, hclass]
      simp only [List.cons_append, List.nil_append, if_neg hdash]
      rfl
    · intro tail
      rw [List.cons_append, bashScan_word, hbash]
      simp only [Bool.or_false]
      rfl
  | case13 i sawC unrecognized word rest hclass hnone =>
    cases rest with
    | nil => simp [firstGlued, hplain hclass, hclass] at hglued
    | cons value rest =>
      cases value with
      | untrusted => simp [firstGlued, hplain hclass, hclass] at hglued
      | literal value => exact absurd rfl (hnone value rest)
  | case14 i sawC unrecognized word rest hclass ih =>
    by_cases hword : isGluedCluster word = true
    · obtain ⟨_, ⟨c, hbash⟩, _⟩ := glued_skipped hword
      rw [firstGlued, if_pos hword] at hglued
      cases hglued
      refine ⟨word, sawC, unrecognized, sawC || c, hword, fun tail => ⟨?_, ?_⟩⟩
      · rw [List.take_succ_cons, List.take_zero, List.cons_append, dashCScan_word, hclass]
        rfl
      · rw [List.take_succ_cons, List.take_zero, List.cons_append, bashScan_word, hbash]
        rfl
    · have hword' := Bool.eq_false_iff.mpr hword
      simp only [firstGlued, hword', hclass, Bool.false_eq_true, if_false, Option.map_eq_some_iff] at hglued
      obtain ⟨j, hj, rfl⟩ := hglued
      have hcode : ∀ tail, dashCScan false i sawC unrecognized ([.literal word] ++ tail) =
          dashCScan false (i + 1) sawC unrecognized tail := by
        intro tail
        rw [List.cons_append, dashCScan_word, hclass]
        rfl
      obtain hbash | hbash := classifyBashWord_of_same hword' hclass
      · rw [bashScan_word, hbash] at hscan
        cases clustered with
        | true => exact absurd rfl hscan
        | false =>
          apply (ih hj hscan hc).behind [.literal word] hcode
          intro tail
          rw [List.cons_append, bashScan_word, hbash]
          rfl
      · rw [bashScan_word, hbash] at hscan
        simp only [Bool.or_false] at hscan
        apply (ih hj hscan fun _ => rfl).behind [.literal word] hcode
        intro tail
        rw [List.cons_append, bashScan_word, hbash]
        simp only [Bool.or_false]
        rfl
  | case15 i unrecognized word rest hclass =>
    have hbash := classifyBashWord_of_same (hplain hclass (by simp)) hclass
    rw [bashScan_word, hbash, hc rfl] at hscan
    exact absurd rfl hscan
  | case16 i sawC unrecognized word rest hclass hsaw ih =>
    have hbash := classifyBashWord_of_same (hplain hclass (by simp)) hclass
    simp only [firstGlued, hplain hclass (by simp), hclass, Bool.false_eq_true, if_false,
      Option.map_eq_some_iff] at hglued
    obtain ⟨j, hj, rfl⟩ := hglued
    rw [bashScan_word, hbash] at hscan
    cases clustered with
    | true => exact absurd rfl hscan
    | false =>
      apply (ih hj hscan hc).behind [.literal word]
      · intro tail
        rw [List.cons_append, dashCScan_word, hclass]
        simp only [if_neg hsaw]
        rfl
      · intro tail
        rw [List.cons_append, bashScan_word, hbash]
        rfl
  | case17 i sawC unrecognized word rest hclass =>
    simp [firstGlued, hplain hclass, hclass] at hglued
  | case18 i sawC unrecognized word rest hasC hclass ih =>
    have hbash := classifyBashWord_of_same (hplain hclass (by simp)) hclass
    simp only [firstGlued, hplain hclass (by simp), hclass, Bool.false_eq_true, if_false,
      Option.map_eq_some_iff] at hglued
    obtain ⟨j, hj, rfl⟩ := hglued
    rw [bashScan_word, hbash] at hscan
    apply (ih hj hscan fun _ => rfl).behind [.literal word]
    · intro tail
      rw [List.cons_append, dashCScan_word, hclass]
      rfl
    · intro tail
      rw [List.cons_append, bashScan_word, hbash]
      rfl

theorem lt_length_of_firstGlued {skip j : ℕ} {words : List ShellWord}
    (h : firstGlued skip words = some j) : j < words.length := by
  have hbehind {skip j : ℕ} {word : ShellWord} {rest : List ShellWord}
      (ih : ∀ {j}, firstGlued skip rest = some j → j < rest.length)
      (h : (firstGlued skip rest).map (· + 1) = some j) : j < (word :: rest).length := by
    obtain ⟨k, hk, rfl⟩ := Option.map_eq_some_iff.mp h
    exact Nat.succ_lt_succ (ih hk)
  induction words generalizing skip j with
  | nil => cases skip <;> cases h
  | cons word rest ih =>
    cases skip with
    | succ skip => exact hbehind ih h
    | zero =>
      cases word with
      | untrusted => cases h
      | literal word =>
        rw [firstGlued] at h
        split at h
        · cases h
          exact Nat.succ_pos _
        · split at h
          · exact hbehind ih h
          · exact hbehind ih h
          · exact hbehind ih h
          · exact hbehind ih h
          · split at h
            · cases h
            · exact hbehind ih h
          · cases h

/-! ## Faithfulness -/

/-- The argvs that start with the words that the scan of `rest` reads up to its first glued
cluster. -/
def SameRead (rest rest' : List ShellWord) : Prop :=
  match firstGlued 0 rest with
  | none => rest' = rest
  | some j => rest'.take (j + 1) = rest.take (j + 1)

theorem shellDashCScript_supported {program : Str} (hp : isSupportedShell program = true)
    (rest : List ShellWord) :
    shellDashCScript (.literal program :: rest) = dashCScan false 1 false false rest := by
  rw [shellDashCScript, if_pos hp]

theorem scanFaithful_of_firstGlued {program : Str} (hp : isSupportedShell program = true)
    {rest : List ShellWord} (hglued : firstGlued 0 rest = none) (hscan : bashOptionScan (.literal program :: rest) ≠ .rejected) :
    ScanFaithful (.literal program :: rest) := by
  have hends : EndsAlike rest (dashCScan false 1 false false rest) (bashScan false false 0 1 rest) :=
    dashCScan_endsAlike hglued hscan
  refine ⟨?_, ?_, ?_⟩
  · intro hall script hshell hcode
    rw [shellDashCScript_supported hp] at hcode
    have hfile := hends.1 hcode fun word hw => hall word (List.mem_cons_of_mem _ hw)
    have hcontra := hfile.symm.trans hshell
    cases hcontra
  · intro _ i hcode
    rw [shellDashCScript_supported hp] at hcode
    exact hends.2 i hcode
  · intro words' hhead hmask hcode hcode'
    obtain ⟨rest', rfl⟩ : ∃ rest', words' = .literal program :: rest' :=
      List.head?_eq_some_iff.mp hhead
    rw [shellDashCScript_supported hp] at hcode hcode'
    exact hcode (dashCScan_masked hmask hcode')

/-- Behind a glued cluster the scan can be led to name a script that the shell does not run. -/
theorem exists_unfaithful {program : Str} (hp : isSupportedShell program = true)
    {rest : List ShellWord} {j : ℕ} (hglued : firstGlued 0 rest = some j)
    (hscan : bashOptionScan (.literal program :: rest) ≠ .rejected) :
    ∃ tail, ¬ ScanFaithful (.literal program :: (rest.take (j + 1) ++ tail)) := by
  obtain ⟨word, sawC, unrecognized, hasC, hword, htail⟩ :
      ReachesGlued false false false 1 j rest := scan_to_glued hglued hscan (by simp)
  obtain ⟨-, -, hpos⟩ := glued_skipped hword
  rcases Nat.lt_or_ge 1 (clusterOperands word) with hmany | hone
  · -- the shell takes both words as operands, the scan reads `-c` and a script
    refine ⟨[.literal "-c".toList, .literal "x".toList], fun h => ?_⟩
    obtain ⟨hcode, hshell⟩ := htail [.literal "-c".toList, .literal "x".toList]
    obtain ⟨n, hn⟩ := Nat.exists_eq_add_of_lt hmany
    have hnone : bashOptionScan (.literal program ::
        (rest.take (j + 1) ++ [.literal "-c".toList, .literal "x".toList])) =
        if hasC then .command none else .file := by
      rw [show clusterOperands word = n + 2 by omega] at hshell
      exact hshell
    have hscript := h.script (by rw [hnone]; cases hasC <;> simp) (1 + j + 1 + 1) (by
      rw [shellDashCScript_supported hp, hcode]
      cases sawC <;> rfl)
    rw [hnone] at hscript
    cases hasC <;> cases hscript
  · -- the shell takes `-o` as the operand, the scan reads it with an operand of its own
    refine ⟨[.literal "-o".toList, .literal "x".toList, .literal "-c".toList, .literal "y".toList],
      fun h => ?_⟩
    obtain ⟨hcode, hshell⟩ :=
      htail [.literal "-o".toList, .literal "x".toList, .literal "-c".toList, .literal "y".toList]
    have hfirst : bashOptionScan (.literal program :: (rest.take (j + 1) ++
        [.literal "-o".toList, .literal "x".toList, .literal "-c".toList, .literal "y".toList])) =
        if hasC then .command (some (1 + j + 1 + 1)) else .file := by
      rw [show clusterOperands word = 1 by omega] at hshell
      exact hshell
    have hscript := h.script (by rw [hfirst]; cases hasC <;> simp) (1 + j + 1 + 2 + 1) (by
      rw [shellDashCScript_supported hp, hcode]
      cases sawC <;> rfl)
    rw [hfirst] at hscript
    cases hasC
    · cases hscript
    · simp at hscript

/-- The scan of a shell's argv is faithful, whatever follows the words that it reads up to the first
glued cluster, exactly when it comes to no such cluster. -/
theorem shellDashCScript_faithful_iff (program : Str) (rest : List ShellWord)
    (hp : isSupportedShell program = true)
    (hscan : bashOptionScan (.literal program :: rest) ≠ .rejected) :
    (∀ rest', SameRead rest rest' → ScanFaithful (.literal program :: rest')) ↔
      firstGlued 0 rest = none := by
  unfold SameRead
  constructor
  · intro h
    by_contra hne
    obtain ⟨j, hj⟩ := Option.ne_none_iff_exists'.mp hne
    rw [hj] at h
    obtain ⟨tail, htail⟩ := exists_unfaithful hp hj hscan
    apply htail
    apply h
    have hlen := lt_length_of_firstGlued hj
    have htake : (rest.take (j + 1)).length = j + 1 := by
      rw [List.length_take]
      omega
    exact List.take_left' htake
  · intro hglued rest' hsame
    rw [hglued] at hsame
    rw [hsame]
    exact scanFaithful_of_firstGlued hp hglued hscan

theorem shellDashCScript_faithful_dash_e :
    ScanFaithful [.literal "bash".toList, .literal "-e".toList, .literal "-c".toList,
      .literal "ls".toList] :=
  (shellDashCScript_faithful_iff "bash".toList
    [.literal "-e".toList, .literal "-c".toList, .literal "ls".toList] (by decide) (by decide)).mpr
    (by decide) _ rfl

/-- `bash -Oc extglob 'ls'` runs `ls`. -/
theorem glued_option_hides_script :
    ¬ ScanFaithful [.literal "bash".toList, .literal "-Oc".toList, .literal "extglob".toList,
      .literal "ls".toList] := by
  intro h
  have hshell : bashOptionScan [.literal "bash".toList, .literal "-Oc".toList,
      .literal "extglob".toList, .literal "ls".toList] = .command (some 3) := by decide
  exact h.noMiss (by simp) (some 3) hshell (by decide)

end GrokBuild.Permission
