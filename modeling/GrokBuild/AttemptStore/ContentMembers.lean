import Mathlib
import GrokBuild.AttemptStore.ContentCheck

/-!
# Which objects pass the content check

A row of one line is an object whose members are read one by one; exactly one of them has to be
named `c`, however the name is spelled.
-/

namespace GrokBuild.AttemptStore

open Text JsonGrammar

variable {b : UInt8} {post value space : Text.Bytes} {fuel : ℕ}

/-! ## Blanks -/

def IsOneLine (text : Text.Bytes) : Prop := 0x0a ∉ text ∧ 0x0d ∉ text

instance (text : Text.Bytes) : Decidable (IsOneLine text) := inferInstanceAs (Decidable (_ ∧ _))

theorem IsOneLine.of_append {front back : Text.Bytes} (h : IsOneLine (front ++ back)) :
    IsOneLine front ∧ IsOneLine back :=
  ⟨⟨fun hlf => h.1 (List.mem_append_left back hlf), fun hcr => h.2 (List.mem_append_left back hcr)⟩,
    ⟨fun hlf => h.1 (List.mem_append_right front hlf),
      fun hcr => h.2 (List.mem_append_right front hcr)⟩⟩

theorem IsOneLine.of_cons {text : Text.Bytes} (h : IsOneLine (b :: text)) : IsOneLine text :=
  ⟨fun hlf => h.1 (List.mem_cons_of_mem b hlf), fun hcr => h.2 (List.mem_cons_of_mem b hcr)⟩

theorem isBlank_of_space (hspace : IsSpace space) (hline : IsOneLine space) :
    ∀ b ∈ space, isBlank b = true := by
  intro b hb
  obtain rfl | rfl | rfl | rfl := hspace b hb
  · rfl
  · rfl
  · exact absurd hb hline.1
  · exact absurd hb hline.2

theorem trimStart_blanks (hblank : ∀ b ∈ space, isBlank b = true)
    (hpost : ∀ b ∈ post.head?, isBlank b = false) : trimStart (space ++ post) = post :=
  (takeWhile_append_stop hblank hpost).2

theorem derived_not_blank (h : Derives .value value) (b : UInt8)
    (hb : b ∈ (value ++ post).head?) : isBlank b = false := by
  cases h with
  | literal hword =>
    simp only [literals, List.mem_cons, List.not_mem_nil, or_false] at hword
    obtain rfl | rfl | rfl := hword
    · cases hb; rfl
    · cases hb; rfl
    · cases hb; rfl
  | number hnumber =>
    obtain ⟨-, first, rest, rfl, hfirst⟩ := number_bytes hnumber
    cases hb
    by_contra hblank
    rw [Bool.not_eq_false, isBlank, Bool.or_eq_true, beq_iff_eq, beq_iff_eq] at hblank
    obtain rfl | rfl := hblank
    · exact absurd hfirst (by decide)
    · exact absurd hfirst (by decide)
  | string items => cases hb; rfl
  | emptyArray hspace => cases hb; rfl
  | array htext => cases hb; rfl
  | emptyObject hspace => cases hb; rfl
  | object htext => cases hb; rfl

/-- Behind a value stand blanks and then no byte of a number. -/
theorem blanks_end_number (hblank : ∀ b ∈ space, isBlank b = true)
    (hpost : ∀ b ∈ post.head?, isNumberByte b = false) :
    ∀ b ∈ (space ++ post).head?, isNumberByte b = false := by
  cases space with
  | nil => exact hpost
  | cons first space =>
    intro b hb
    cases hb
    have hfirst := hblank first (List.mem_cons_self)
    rw [isBlank, Bool.or_eq_true, beq_iff_eq, beq_iff_eq] at hfirst
    obtain rfl | rfl := hfirst
    · decide
    · decide

/-! ## Members -/

/-- Nothing, or the comma before the next member. -/
def EndsMember (post : Text.Bytes) : Prop := post = [] ∨ ∃ rest, post = comma :: rest

theorem EndsMember.head (h : EndsMember post) (b : UInt8) (hb : b ∈ post.head?) :
    isNumberByte b = false ∧ isBlank b = false := by
  obtain rfl | ⟨rest, rfl⟩ := h
  · cases hb
  · cases hb
    exact ⟨rfl, rfl⟩

structure PlainMember (m : Member) : Prop where
  before : ∀ b ∈ m.before, isBlank b = true
  afterKey : ∀ b ∈ m.afterKey, isBlank b = true
  beforeValue : ∀ b ∈ m.beforeValue, isBlank b = true
  after : ∀ b ∈ m.after, isBlank b = true

theorem plainMember_of_oneLine {m : Member} (h : IsOneLine m.text) : PlainMember m := by
  obtain ⟨hbefore, h⟩ := h.of_append
  obtain ⟨-, h⟩ := h.of_append
  obtain ⟨hafterKey, h⟩ := h.of_append
  obtain ⟨hbeforeValue, h⟩ := h.of_cons.of_append
  obtain ⟨-, hafter⟩ := h.of_append
  exact {
    before := isBlank_of_space m.before_space hbefore
    afterKey := isBlank_of_space m.afterKey_space hafterKey
    beforeValue := isBlank_of_space m.beforeValue_space hbeforeValue
    after := isBlank_of_space m.after_space hafter }

theorem readMember_eq {m : Member} (h : PlainMember m) (hpost : EndsMember post) :
    readMember (m.text ++ post) = .ok (itemsText m.key, m.value, m.after ++ post) := by
  have htext : m.text ++ post = m.before ++ (stringText m.key ++ (m.afterKey ++
      ([colon] ++ (m.beforeValue ++ (m.value ++ (m.after ++ post)))))) := by
    simp only [Member.text, List.append_assoc, List.cons_append, List.nil_append]
  have hkey := @trimStart_blanks (stringText m.key ++ (m.afterKey ++
    ([colon] ++ (m.beforeValue ++ (m.value ++ (m.after ++ post)))))) _ h.before
      (by rintro b ⟨⟩; rfl)
  have hcolon := @trimStart_blanks ([colon] ++ (m.beforeValue ++ (m.value ++ (m.after ++ post))))
    _ h.afterKey (by rintro b ⟨⟩; rfl)
  have hvalue := trimStart_blanks h.beforeValue
    (@derived_not_blank (m.after ++ post) _ m.isValue)
  have hend := blanks_end_number h.after fun b hb => (hpost.head b hb).1
  rw [readMember, htext, hkey, jsonString_stringText]
  simp only [okOr, bind, Except.bind, hcolon, stripBytes_append, hvalue, jsonValue_eq m.isValue hend]
  rfl

/-! ## The content -/

/-- The bytes of base64url characters between two quotes, not more than the limit. -/
def IsContent (value : Text.Bytes) : Prop :=
  ∃ content : Text.Bytes, value = quote :: (content ++ [quote]) ∧
    (∀ b ∈ content, isBase64url b = true) ∧ content.length ≤ maxContentEncodedBytes

theorem between_quotes_iff {content : Text.Bytes} :
    (stripBytes value [quote]).bind (stripLast · quote) = some content ↔
      value = quote :: (content ++ [quote]) := by
  rw [Option.bind_eq_some_iff]
  constructor
  · rintro ⟨rest, hstart, hlast⟩
    rw [stripBytes_eq_some hstart]
    unfold stripLast at hlast
    split_ifs at hlast with hquote
    rw [← Option.some.inj hlast, List.dropLast_append_getLast? quote hquote]
    rfl
  · rintro rfl
    refine ⟨content ++ [quote], stripBytes_append [quote] _, ?_⟩
    rw [stripLast, List.getLast?_concat, if_pos rfl, List.dropLast_concat]

theorem boundContentString_ok_iff (value : Text.Bytes) :
    boundContentString value = .ok () ↔ IsContent value := by
  unfold boundContentString
  split
  · next hnone =>
    refine ⟨nofun, ?_⟩
    rintro ⟨content, hvalue, -⟩
    rw [between_quotes_iff.2 hvalue] at hnone
    cases hnone
  · next encoded hsome =>
    rw [between_quotes_iff] at hsome
    have hcontent : ∀ {p : Text.Bytes → Prop},
        (∃ content, value = quote :: (content ++ [quote]) ∧ p content) ↔ p encoded := by
      intro p
      constructor
      · rintro ⟨content, hvalue, hp⟩
        have heq := List.append_cancel_right (List.cons.inj (hsome.symm.trans hvalue)).2
        exact heq ▸ hp
      · exact fun hp => ⟨encoded, hsome, hp⟩
    rw [IsContent, hcontent]
    split_ifs with hslash hlong hall
    · refine ⟨nofun, fun h => ?_⟩
      exact absurd (h.1 backslash hslash) (by decide)
    · exact ⟨nofun, fun h => absurd h.2 (Nat.not_le.mpr hlong)⟩
    · exact ⟨fun _ => ⟨List.all_eq_true.mp hall, Nat.not_lt.mp hlong⟩, fun _ => rfl⟩
    · exact ⟨nofun, fun h => absurd (List.all_eq_true.mpr h.1) hall⟩

/-- The members whose name is `c`. -/
def contents (members : List Member) : List Member :=
  members.filter fun m => decoded m.key = some [letterC]

/-- What is asked of the members that are left, and whether a content was seen before them. -/
def Accepts (members : List Member) : Bool → Prop
  | true => contents members = []
  | false => ∃ m, contents members = [m] ∧ IsContent m.value

theorem contents_cons_of_not {m : Member} (h : readsC m.key = false) (members : List Member) :
    contents (m :: members) = contents members := by
  refine List.filter_cons_of_neg fun hc => ?_
  rw [decide_eq_true_iff, decoded_eq_singleton_iff, h] at hc
  cases hc

theorem contents_cons {m : Member} (h : readsC m.key = true) (members : List Member) :
    contents (m :: members) = m :: contents members :=
  List.filter_cons_of_pos (by rwa [decide_eq_true_iff, decoded_eq_singleton_iff])

theorem noteContent_eq (items : List StringItem) (value : Text.Bytes) (seenContent : Bool) :
    noteContent (itemsText items) value seenContent =
      if readsC items then do
        boundContentString value
        if seenContent then .error (.error agentTextField) else pure true
      else pure seenContent := by
  rw [noteContent, keyIsC_items]
  rfl

/-- Reading one member asks of the rest what is left to ask. -/
theorem accepts_cons (m : Member) (members : List Member) (seenContent : Bool) :
    Accepts (m :: members) seenContent ↔
      ∃ seen, noteContent (itemsText m.key) m.value seenContent = .ok seen ∧
        Accepts members seen := by
  rw [noteContent_eq]
  cases hkey : readsC m.key with
  | false =>
    have hsame : Accepts (m :: members) seenContent ↔ Accepts members seenContent := by
      cases seenContent with
      | true => rw [Accepts, Accepts, contents_cons_of_not hkey]
      | false => rw [Accepts, Accepts, contents_cons_of_not hkey]
    rw [hsame]
    exact ⟨fun h => ⟨seenContent, rfl, h⟩, by rintro ⟨seen, ⟨⟩, h⟩; exact h⟩
  | true =>
    cases hbound : boundContentString m.value with
    | error halt =>
      have hnot : ¬ IsContent m.value := by
        rw [← boundContentString_ok_iff, hbound]
        exact nofun
      refine ⟨fun h => ?_, by rintro ⟨seen, hseen, -⟩; cases hseen⟩
      cases seenContent with
      | true =>
        rw [Accepts, contents_cons hkey] at h
        exact absurd h (List.cons_ne_nil _ _)
      | false =>
        rw [Accepts, contents_cons hkey] at h
        obtain ⟨m', hm, hcontent⟩ := h
        rw [(List.cons.inj hm).1] at hnot
        exact absurd hcontent hnot
    | ok _ =>
      have hcontent : IsContent m.value := (boundContentString_ok_iff _).mp hbound
      cases seenContent with
      | true =>
        rw [Accepts, contents_cons hkey]
        exact ⟨nofun, by rintro ⟨seen, hseen, -⟩; cases hseen⟩
      | false =>
        rw [Accepts, contents_cons hkey]
        constructor
        · rintro ⟨m', hm, -⟩
          exact ⟨true, rfl, (List.cons.inj hm).2⟩
        · rintro ⟨seen, ⟨⟩, hrest⟩
          have hnone : contents members = [] := hrest
          exact ⟨m, congrArg (List.cons m) hnone, hcontent⟩

theorem accepts_nil_iff (seenContent : Bool) : Accepts [] seenContent ↔ seenContent = true := by
  cases seenContent with
  | true => exact ⟨fun _ => rfl, fun _ => rfl⟩
  | false => exact ⟨by rintro ⟨m, ⟨⟩, -⟩, nofun⟩

/-! ## The object -/

theorem member_text_ne_nil (m : Member) (post : Text.Bytes) : m.text ++ post ≠ [] := by
  intro h
  have hlen := congrArg List.length h
  simp [Member.text] at hlen

/-- The members are read one by one, each up to its comma. -/
theorem checkFields_members {members : List Member} (hmembers : members ≠ [])
    (hline : IsOneLine (membersText space members)) (seenContent : Bool)
    (hfuel : (membersText space members).length < fuel) :
    checkFields fuel (membersText space members) seenContent = .ok () ↔
      Accepts members seenContent := by
  induction members generalizing fuel seenContent with
  | nil => exact absurd rfl hmembers
  | cons m members ih =>
    obtain ⟨fuel, rfl⟩ := Nat.exists_eq_add_of_lt (Nat.zero_lt_of_lt hfuel)
    rw [Nat.zero_add, checkFields, accepts_cons]
    cases members with
    | nil =>
      have hplain : PlainMember m := plainMember_of_oneLine hline
      have hread := readMember_eq hplain (.inl rfl)
      have htrim := @trimStart_blanks [] _ hplain.after fun b hb => by cases hb
      have hne := member_text_ne_nil m []
      rw [List.append_nil] at hread htrim hne
      rw [membersText, if_neg hne, hread]
      cases hnote : noteContent (itemsText m.key) m.value seenContent with
      | error halt =>
        simp only [bind, Except.bind, hnote]
        exact ⟨(fun h => by cases h), by rintro ⟨seen, hseen, -⟩; cases hseen⟩
      | ok seen =>
        simp only [bind, Except.bind, List.append_nil, hnote, htrim, if_true]
        cases seen with
        | true => exact ⟨fun _ => ⟨true, rfl, rfl⟩, fun _ => rfl⟩
        | false =>
          refine ⟨(fun h => by cases h), ?_⟩
          rintro ⟨seen, hseen, haccepts⟩
          rw [← Except.ok.inj hseen, accepts_nil_iff] at haccepts
          cases haccepts
    | cons next members =>
      rw [membersText_cons space m (List.cons_ne_nil next members)] at hline hfuel ⊢
      obtain ⟨hmember, hrest⟩ := hline.of_append
      have hplain : PlainMember m := plainMember_of_oneLine hmember
      have hends : EndsMember (0x2c :: membersText space (next :: members)) := .inr ⟨_, rfl⟩
      have htrim := trimStart_blanks hplain.after fun b hb => (hends.head b hb).2
      have hstrip : stripBytes (0x2c :: membersText space (next :: members)) [comma] =
          some (membersText space (next :: members)) :=
        stripBytes_append [comma] _
      rw [List.length_append, List.length_cons] at hfuel
      rw [if_neg (member_text_ne_nil m _), readMember_eq hplain hends]
      cases hnote : noteContent (itemsText m.key) m.value seenContent with
      | error halt =>
        simp only [bind, Except.bind, hnote]
        exact ⟨(fun h => by cases h), by rintro ⟨seen, hseen, -⟩; cases hseen⟩
      | ok seen =>
        simp only [bind, Except.bind, hnote, htrim, if_neg (List.cons_ne_nil _ _), hstrip]
        rw [ih (List.cons_ne_nil next members) hrest.of_cons seen (by omega)]
        exact ⟨fun h => ⟨seen, rfl, h⟩, by rintro ⟨seen, ⟨⟩, h⟩; exact h⟩

/-- Without a member there is no content. -/
theorem checkFields_space (hspace : IsSpace space) (hline : IsOneLine space) :
    checkFields (space.length + 1) space false ≠ .ok () := by
  have htrim := @trimStart_blanks [] _ (isBlank_of_space hspace hline) fun b hb => by cases hb
  have hread : readMember space = .error (.error agentTextField) := by
    rw [List.append_nil] at htrim
    unfold readMember
    rw [htrim]
    rfl
  rw [checkFields]
  by_cases hempty : space = []
  · rw [if_pos hempty, if_neg Bool.false_ne_true]
    intro hok
    cases hok
  · rw [if_neg hempty, hread]
    intro hok
    cases hok

/-- The text of a JSON object on one line. -/
structure OneLineObject where
  space : Text.Bytes
  members : List Member
  isSpace : IsSpace space
  oneLine : IsOneLine (objectText space members)

def OneLineObject.text (object : OneLineObject) : Text.Bytes :=
  objectText object.space object.members

theorem derives_members {nonterminal : Nonterminal} {text : Text.Bytes} (h : Derives nonterminal text) :
    nonterminal = .members → ∃ members, members ≠ [] ∧ text = membersText [] members := by
  induction h with
  | member key hbefore hafterKey hbeforeValue hvalue hafter =>
    exact fun _ => ⟨[⟨_, key, _, _, _, _, hbefore, hafterKey, hbeforeValue, hvalue, hafter⟩],
      List.cons_ne_nil _ _, rfl⟩
  | members _ _ ih₁ ih₂ =>
    intro _
    obtain ⟨members₁, hne₁, rfl⟩ := ih₁ rfl
    obtain ⟨members₂, hne₂, rfl⟩ := ih₂ rfl
    exact ⟨members₁ ++ members₂, List.append_ne_nil_of_left_ne_nil hne₁ _,
      (membersText_append [] hne₁ hne₂).symm⟩
  | _ => exact fun heq => by cases heq

/-- Every text of one line that the grammar derives from its brace on is one of these. -/
theorem exists_oneLineObject {text : Text.Bytes} (h : Derives .value (0x7b :: text))
    (hline : IsOneLine (0x7b :: text)) : ∃ object : OneLineObject, object.text = 0x7b :: text := by
  generalize hwhole : (0x7b :: text : Text.Bytes) = whole at h hline
  cases h with
  | literal hword =>
    rw [← hwhole] at hword
    simp [literals] at hword
  | number hnumber =>
    obtain ⟨-, first, rest, htext, hfirst⟩ := number_bytes hnumber
    rw [← (List.cons.inj (hwhole.trans htext)).1] at hfirst
    exact absurd hfirst (by decide)
  | string items => exact absurd (List.cons.inj hwhole).1 (by decide)
  | emptyArray _ => exact absurd (List.cons.inj hwhole).1 (by decide)
  | array _ => exact absurd (List.cons.inj hwhole).1 (by decide)
  | emptyObject hspace => exact ⟨⟨_, [], hspace, hline⟩, rfl⟩
  | object htext =>
    obtain ⟨members, -, rfl⟩ := derives_members htext rfl
    exact ⟨⟨[], members, List.forall_mem_nil _, hline⟩, rfl⟩

theorem checkContentEncodedLen_object (object : OneLineObject) :
    checkContentEncodedLen object.text = .ok () ↔ Accepts object.members false := by
  obtain ⟨space, members, hspace, hline⟩ := object
  have hfields : (stripBytes (objectText space members) [openBrace]).bind
      (stripLast · closeBrace) = some (membersText space members) := by
    have hopen : stripBytes (objectText space members) [openBrace] =
        some (membersText space members ++ [0x7d]) := stripBytes_append [openBrace] _
    rw [hopen, Option.bind_some, stripLast, List.getLast?_concat, if_pos rfl,
      List.dropLast_concat]
  have hmembers : IsOneLine (membersText space members) := hline.of_cons.of_append.1
  rw [OneLineObject.text, checkContentEncodedLen, hfields]
  dsimp only
  cases members with
  | nil =>
    refine ⟨fun h => absurd h (checkFields_space hspace hmembers), fun h => ?_⟩
    rw [accepts_nil_iff] at h
    cases h
  | cons m members =>
    exact checkFields_members (List.cons_ne_nil m members) hmembers false (Nat.lt_succ_self _)

/-- A row of one line passes if one member is named `c` and holds a content; and on any bytes the
scan ends, without a panic. -/
theorem content_check_agrees :
    (∀ object : OneLineObject, checkContentEncodedLen object.text = .ok () ↔
      ∃ m, contents object.members = [m] ∧ IsContent m.value) ∧
    (∀ text, Derives .value (0x7b :: text) → IsOneLine (0x7b :: text) →
      ∃ object : OneLineObject, object.text = 0x7b :: text) ∧
    ∀ body, checkContentEncodedLen body ≠ .error .panic ∧
      checkContentEncodedLen body ≠ .error .endless := by
  refine ⟨checkContentEncodedLen_object, fun text h hline => exists_oneLineObject h hline, ?_⟩
  intro body
  have hmeets := checkContentEncodedLen_meets body
  refine ⟨fun h => ?_, fun h => ?_⟩
  · rw [h] at hmeets
    exact hmeets
  · rw [h] at hmeets
    exact hmeets

/-- A space stands in the content. -/
def spacedContent : Member where
  before := []
  key := [.plain letterC (by decide)]
  afterKey := []
  beforeValue := []
  value := [quote, 0x61, 0x20, 0x62, quote]
  after := []
  before_space := nofun
  afterKey_space := nofun
  beforeValue_space := nofun
  isValue := .string [.plain 0x61 (by decide), .plain 0x20 (by decide), .plain 0x62 (by decide)]
  after_space := nofun

def spacedObject : OneLineObject where
  space := []
  members := [spacedContent]
  isSpace := nofun
  oneLine := by decide

theorem spaced_content_rejected :
    contents spacedObject.members = [spacedContent] ∧
      spacedContent.value = stringText [.plain 0x61 (by decide), .plain 0x20 (by decide),
        .plain 0x62 (by decide)] ∧
      backslash ∉ spacedContent.value ∧ spacedContent.value.length ≤ maxContentEncodedBytes ∧
      checkContentEncodedLen spacedObject.text ≠ .ok () := by
  refine ⟨rfl, rfl, by decide, by decide, by decide⟩

end GrokBuild.AttemptStore
