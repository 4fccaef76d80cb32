import GrokBuild.Scheduler.Actor
import GrokBuild.Text.ByteSlices
import GrokBuild.Transcript.Cursor

/-!
# Intervals and the dates made of them

An interval is a count of seconds in 64 bits. It is cast to a signed number, made a duration and
added to a date, each of which is checked where the library panics. A task made of an interval has
its dates if and only if the interval fits in a duration and the dates in the calendar.
-/

namespace GrokBuild.Scheduler
open Text

/-! ## Parsing -/

def minimumIntervalSecs : ℕ := 60

/-- What `SchedulerError::InvalidInterval` is made of. -/
inductive IntervalError where
  | empty
  | format (s : Str)
  | zero
  | unit (suffix : Str)
  | tooLarge (s : Str)
deriving DecidableEq, Repr

/-- `debug` is the `{:?}` of a string. -/
def IntervalError.message (debug : Str → String) : IntervalError → String
  | .empty => "interval cannot be empty"
  | .format s => "invalid interval format: " ++ debug s ++ " (expected e.g. 5m, 2h, 1d)"
  | .zero => "interval value must be greater than 0"
  | .unit suffix =>
    "invalid interval suffix: " ++ debug suffix ++ " (expected s, m, h, or d)"
  | .tooLarge s => "interval too large: " ++ debug s

def unitSecs : Str → Option ℕ
  | ['s'] => some 1
  | ['m'] => some 60
  | ['h'] => some 3600
  | ['d'] => some 86400
  | _ => none

def parseParts (s digits suffix : Str) : Except IntervalError ℕ :=
  match Transcript.parseU64 digits with
  | none => .error (.format s)
  | some value =>
    if value = 0 then .error .zero
    else
      match unitSecs suffix with
      | none => .error (.unit suffix)
      | some unit =>
        if value * unit < 2 ^ 64 then .ok (max (value * unit) minimumIntervalSecs)
        else .error (.tooLarge s)

/-- The last byte is split off as the unit. `none` where that panics. -/
def parseInterval (text : Str) : Option (Except IntervalError ℕ) :=
  let s := trim text
  if s = [] then some (.error .empty)
  else (splitAtByte (utf8Len s - 1) s).map fun (digits, suffix) => parseParts s digits suffix

/-! ## Dates -/

/-- `TimeDelta::MAX` in whole seconds: a duration is a 64-bit count of milliseconds. -/
def maxDurationSecs : ℤ := (2 ^ 63 - 1) / 1000

/-- `DateTime::MIN_UTC`: January 1st, -262143. -/
def minUtc : Time := -8334601228800 * 10 ^ 9

/-- `DateTime::MAX_UTC`: the last nanosecond of December 31st, 262142. -/
def maxUtc : Time := 8210266876800 * 10 ^ 9 - 1

/-- A date in the calendar. -/
abbrev DateTime := { t : Time // minUtc ≤ t ∧ t ≤ maxUtc }

/-- A sum of a date and a duration. `none` where it panics. -/
def dateTime? (t : Time) : Option DateTime :=
  if h : minUtc ≤ t ∧ t ≤ maxUtc then some ⟨t, h⟩ else none

/-- `secs as i64`. -/
def signedSecs (secs : ℕ) : ℤ := Int.bmod secs (2 ^ 64)

/-- `chrono::Duration::seconds(secs as i64)`, as far as it does not panic. -/
def durationSeconds? (secs : ℕ) : Option ℤ :=
  if -maxDurationSecs ≤ signedSecs secs ∧ signedSecs secs ≤ maxDurationSecs then
    some (durationSeconds secs)
  else none

def recurringTaskTtl : ℤ := 7 * 86400 * 10 ^ 9

/-- A task that is to fire at once was made an interval ago. -/
def createdAt? (now : DateTime) (intervalSecs : ℕ) (fireImmediately : Bool) : Option DateTime :=
  if fireImmediately then (durationSeconds? intervalSecs).bind fun back => dateTime? (now.1 - back)
  else some now

def expiresAt? (now : DateTime) (recurring : Bool) : Option (Option Time) :=
  if recurring then (dateTime? (now.1 + recurringTaskTtl)).map fun t => some t.1 else some none

def newTask (id : String) (intervalSecs : ℕ) (prompt : String) (recurring durable : Bool)
    (createdAt : DateTime) (expiresAt : Option Time) : ScheduledTask where
  id := id
  intervalSecs := intervalSecs
  prompt := prompt
  recurring := recurring
  durable := durable
  createdAt := createdAt.1
  lastFiredAt := none
  expiresAt := expiresAt
  lastSubagentId := none
  iterationsSinceFresh := 0
  chainResetPending := false

def withFireImmediately (id : String) (now : DateTime) (intervalSecs : ℕ) (prompt : String)
    (recurring durable fireImmediately : Bool) : Option ScheduledTask :=
  (createdAt? now intervalSecs fireImmediately).bind fun createdAt =>
    (expiresAt? now recurring).map fun expiresAt =>
      newTask id intervalSecs prompt recurring durable createdAt expiresAt

namespace ScheduledTask

def anchor (t : ScheduledTask) : Time := t.lastFiredAt.getD t.createdAt

/-- `next_fire_at` with its panics. -/
def nextFireAt? (t : ScheduledTask) : Option DateTime :=
  (durationSeconds? t.intervalSecs).bind fun interval => dateTime? (t.anchor + interval)

/-- `next_wake_at` with its panics. -/
def nextWakeAt? (t : ScheduledTask) : Option Time :=
  match t.expiresAt with
  | some expiresAt => t.nextFireAt?.map fun next => min next.1 expiresAt
  | none => t.nextFireAt?.map Subtype.val

end ScheduledTask

/-! ## The checks -/

def InCalendar (t : Time) : Prop := minUtc ≤ t ∧ t ≤ maxUtc

theorem dateTime?_of_inCalendar {t : Time} (h : InCalendar t) : dateTime? t = some ⟨t, h⟩ := dif_pos h

theorem dateTime?_eq_some {t : Time} {d : DateTime} (h : dateTime? t = some d) :
    InCalendar t ∧ d.1 = t := by
  unfold dateTime? at h
  split_ifs at h with hin
  exact ⟨hin, congrArg Subtype.val (Option.some.inj h).symm⟩

theorem durationSeconds?_eq_some {secs : ℕ} {d : ℤ} (h : durationSeconds? secs = some d) :
    signedSecs secs ≤ maxDurationSecs ∧ durationSeconds secs = d := by
  unfold durationSeconds? at h
  split_ifs at h with hfits
  exact ⟨hfits.2, Option.some.inj h⟩

theorem signedSecs_of_le {secs : ℕ} (h : (secs : ℤ) ≤ maxDurationSecs) :
    signedSecs secs = secs := by
  rw [show maxDurationSecs = 9223372036854775 from by decide] at h
  apply Int.bmod_eq_of_le
  · exact le_trans (by decide) (Int.natCast_nonneg secs)
  · exact lt_of_le_of_lt h (by decide)

theorem durationSeconds_eq (secs : ℕ) : durationSeconds secs = signedSecs secs * 10 ^ 9 := by
  unfold durationSeconds signedSecs
  exact Eq.refl _

theorem durationSeconds?_of_le {secs : ℕ} (h : (secs : ℤ) ≤ maxDurationSecs) :
    durationSeconds? secs = some ((secs : ℤ) * 10 ^ 9) := by
  unfold durationSeconds?
  rw [durationSeconds_eq, signedSecs_of_le h, if_pos]
  refine ⟨le_trans (by decide) (Int.natCast_nonneg secs), h⟩

namespace ScheduledTask

theorem nextFireAt_eq (t : ScheduledTask) :
    t.nextFireAt = t.anchor + durationSeconds t.intervalSecs := by
  unfold nextFireAt anchor
  exact Eq.refl _

theorem nextFireAt?_eq_some {t : ScheduledTask} {next : DateTime} (h : t.nextFireAt? = some next) :
    signedSecs t.intervalSecs ≤ maxDurationSecs ∧ InCalendar t.nextFireAt ∧
      next.1 = t.nextFireAt := by
  rw [nextFireAt?, Option.bind_eq_some_iff] at h
  obtain ⟨interval, hinterval, hnext⟩ := h
  obtain ⟨hle, hduration⟩ := durationSeconds?_eq_some hinterval
  rw [nextFireAt_eq, hduration]
  exact ⟨hle, dateTime?_eq_some hnext⟩

theorem nextWakeAt?_isSome (t : ScheduledTask) : t.nextWakeAt?.isSome = t.nextFireAt?.isSome := by
  unfold nextWakeAt?
  split
  · exact Option.isSome_map
  · exact Option.isSome_map

end ScheduledTask

/-! ## Tasks of an interval -/

variable {now : DateTime} {lastFired : Option DateTime} {secs : ℕ}
  {recurring fireImmediately : Bool}

/-- A task that fires at once is anchored an interval back. -/
def anchorDate (now : DateTime) (lastFired : Option DateTime) (secs : ℕ) (fireImmediately : Bool) :
    Time :=
  (lastFired.map Subtype.val).getD
    (if fireImmediately then now.1 - (secs : ℤ) * 10 ^ 9 else now.1)

/-- The interval fits in a duration, and the dates made of it in the calendar. -/
structure FitsCalendar (now : DateTime) (lastFired : Option DateTime) (secs : ℕ)
    (recurring fireImmediately : Bool) : Prop where
  duration : (secs : ℤ) ≤ maxDurationSecs
  back : fireImmediately = true → minUtc ≤ now.1 - (secs : ℤ) * 10 ^ 9
  expiry : recurring = true → now.1 + recurringTaskTtl ≤ maxUtc
  next : anchorDate now lastFired secs fireImmediately + (secs : ℤ) * 10 ^ 9 ≤ maxUtc

/-- The cast keeps the interval, every date is computed, and a task that does not fire at once fires
behind its anchor. `lastFired` is the last fire of the task, if any. -/
structure SoundSchedule (now : DateTime) (lastFired : Option DateTime) (secs : ℕ)
    (recurring fireImmediately : Bool) : Prop where
  cast : signedSecs secs = secs
  dates : ∀ id prompt durable, ∃ t,
    withFireImmediately id now secs prompt recurring durable fireImmediately = some t ∧
    ∃ next wake,
      ({ t with lastFiredAt := lastFired.map Subtype.val } : ScheduledTask).nextFireAt? = some next ∧
      ({ t with lastFiredAt := lastFired.map Subtype.val } : ScheduledTask).nextWakeAt? = some wake ∧
      (fireImmediately = false →
        ({ t with lastFiredAt := lastFired.map Subtype.val } : ScheduledTask).anchor < next.1)

theorem createdAt?_of_fits (h : (secs : ℤ) ≤ maxDurationSecs)
    (hback : fireImmediately = true → minUtc ≤ now.1 - (secs : ℤ) * 10 ^ 9) :
    ∃ created, createdAt? now secs fireImmediately = some created ∧
      created.1 = if fireImmediately then now.1 - (secs : ℤ) * 10 ^ 9 else now.1 := by
  unfold createdAt?
  cases fireImmediately with
  | false => exact ⟨now, rfl, rfl⟩
  | true =>
    have hin : InCalendar (now.1 - (secs : ℤ) * 10 ^ 9) := by
      refine ⟨hback rfl, le_trans (Int.sub_le_self _ ?_) now.2.2⟩
      exact Int.mul_nonneg (Int.natCast_nonneg secs) (by decide)
    rw [if_pos rfl, if_pos rfl, durationSeconds?_of_le h]
    exact ⟨⟨_, hin⟩, dateTime?_of_inCalendar hin, rfl⟩

theorem expiresAt?_of_fits (h : recurring = true → now.1 + recurringTaskTtl ≤ maxUtc) :
    ∃ expires, expiresAt? now recurring = some expires := by
  unfold expiresAt?
  cases recurring with
  | false => exact ⟨none, rfl⟩
  | true =>
    have hin : InCalendar (now.1 + recurringTaskTtl) := by
      refine ⟨le_trans now.2.1 (Int.le_add_of_nonneg_right ?_), h rfl⟩
      decide
    rw [if_pos rfl, dateTime?_of_inCalendar hin]
    exact ⟨_, rfl⟩

theorem soundSchedule_of_fits (hpos : 0 < secs)
    (h : FitsCalendar now lastFired secs recurring fireImmediately) :
    SoundSchedule now lastFired secs recurring fireImmediately := by
  refine ⟨signedSecs_of_le h.duration, fun id prompt durable => ?_⟩
  obtain ⟨created, hcreated, hvalue⟩ := createdAt?_of_fits h.duration h.back
  obtain ⟨expires, hexpires⟩ := expiresAt?_of_fits h.expiry
  have hcount : (0 : ℤ) < (secs : ℤ) * 10 ^ 9 :=
    Int.mul_pos (Int.natCast_pos.mpr hpos) (by decide)
  refine ⟨newTask id secs prompt recurring durable created expires, ?_, ?_⟩
  · rw [withFireImmediately, hcreated, hexpires]
    rfl
  generalize htask : ({ newTask id secs prompt recurring durable created expires with
    lastFiredAt := lastFired.map Subtype.val } : ScheduledTask) = task
  have hanchor : task.anchor = anchorDate now lastFired secs fireImmediately := by
    rw [← htask, anchorDate, ← hvalue]
    rfl
  have hsecs : task.intervalSecs = secs := by
    rw [← htask]
    rfl
  have hin : InCalendar (task.anchor + (secs : ℤ) * 10 ^ 9) := by
    refine ⟨le_trans ?_ (Int.le_add_of_nonneg_right hcount.le), ?_⟩
    · rw [← htask]
      cases lastFired with
      | none => exact created.2.1
      | some fired => exact fired.2.1
    · rw [hanchor]
      exact h.next
  have hnext : task.nextFireAt? = some ⟨_, hin⟩ := by
    rw [ScheduledTask.nextFireAt?, hsecs, durationSeconds?_of_le h.duration]
    exact dateTime?_of_inCalendar hin
  have hwake := task.nextWakeAt?_isSome
  rw [hnext] at hwake
  obtain ⟨wake, hwake⟩ := Option.isSome_iff_exists.mp hwake
  exact ⟨_, wake, hnext, hwake, fun _ => Int.lt_add_of_pos_right _ hcount⟩

theorem withFireImmediately_eq_some {id prompt : String} {durable : Bool} {t : ScheduledTask}
    (h : withFireImmediately id now secs prompt recurring durable fireImmediately = some t) :
    ∃ created expires, createdAt? now secs fireImmediately = some created ∧
      expiresAt? now recurring = some expires ∧
      newTask id secs prompt recurring durable created expires = t := by
  rw [withFireImmediately, Option.bind_eq_some_iff] at h
  obtain ⟨created, hcreated, h⟩ := h
  obtain ⟨expires, hexpires, rfl⟩ := Option.map_eq_some_iff.mp h
  exact ⟨created, expires, hcreated, hexpires, rfl⟩

theorem createdAt?_eq_some {created : DateTime} (hsecs : (secs : ℤ) ≤ maxDurationSecs)
    (h : createdAt? now secs fireImmediately = some created) :
    created.1 = (if fireImmediately then now.1 - (secs : ℤ) * 10 ^ 9 else now.1) ∧
      (fireImmediately = true → minUtc ≤ now.1 - (secs : ℤ) * 10 ^ 9) := by
  unfold createdAt? at h
  cases fireImmediately with
  | false =>
    obtain rfl := Option.some.inj h
    exact ⟨rfl, nofun⟩
  | true =>
    rw [if_pos rfl, durationSeconds?_of_le hsecs, Option.bind_some] at h
    obtain ⟨hin, hvalue⟩ := dateTime?_eq_some h
    exact ⟨hvalue, fun _ => hin.1⟩

theorem expiresAt?_eq_some {expires : Option Time} (h : expiresAt? now recurring = some expires) :
    recurring = true → now.1 + recurringTaskTtl ≤ maxUtc := by
  rintro rfl
  unfold expiresAt? at h
  rw [if_pos rfl, Option.map_eq_some_iff] at h
  obtain ⟨t, ht, -⟩ := h
  exact (dateTime?_eq_some ht).1.2

theorem fits_of_soundSchedule
    (h : SoundSchedule now lastFired secs recurring fireImmediately) :
    FitsCalendar now lastFired secs recurring fireImmediately := by
  obtain ⟨t, ht, next, -, hnext, -⟩ := h.dates "" "" false
  obtain ⟨created, expires, hcreated, hexpires, rfl⟩ := withFireImmediately_eq_some ht
  obtain ⟨hduration, hin, -⟩ := ScheduledTask.nextFireAt?_eq_some hnext
  have hsecs : (secs : ℤ) ≤ maxDurationSecs := by
    rw [← h.cast]
    exact hduration
  obtain ⟨hvalue, hback⟩ := createdAt?_eq_some hsecs hcreated
  refine ⟨hsecs, hback, expiresAt?_eq_some hexpires, ?_⟩
  rw [ScheduledTask.nextFireAt_eq, durationSeconds_eq] at hin
  rw [anchorDate, ← hvalue, ← h.cast]
  exact hin.2

/-! ## Texts that are intervals -/

variable {s digits suffix : Str} {value unit : ℕ}

theorem utf8Len_eq_one {back : Str} (h : utf8Len back = 1) : ∃ c, back = [c] ∧ c.utf8Size = 1 := by
  cases back with
  | nil => cases h
  | cons c rest =>
    rw [utf8Len_cons] at h
    have hpos := c.utf8Size_pos
    cases rest with
    | nil => exact ⟨c, rfl, h⟩
    | cons d rest =>
      have hrest := utf8Len_pos (List.cons_ne_nil d rest)
      omega

theorem splitAtByte_last_eq_some_iff (hs : s ≠ []) :
    splitAtByte (utf8Len s - 1) s = some (digits, suffix) ↔
      s = digits ++ suffix ∧ utf8Len suffix = 1 := by
  have hlen := utf8Len_pos hs
  rw [splitAtByte_eq_some_iff]
  constructor
  · rintro ⟨rfl, hfront⟩
    rw [utf8Len_append] at hfront hlen
    exact ⟨rfl, by omega⟩
  · rintro ⟨rfl, hback⟩
    rw [utf8Len_append]
    exact ⟨rfl, by omega⟩

/-- The last character, if there is one, is a single byte. -/
def EndsInByte (s : Str) : Prop := ∀ c, s.getLast? = some c → c.utf8Size = 1

theorem parseInterval_isSome_iff {text : Str} :
    (parseInterval text).isSome = true ↔ EndsInByte (trim text) := by
  unfold parseInterval
  dsimp only
  generalize trim text = s
  split_ifs with hs
  · subst hs
    exact iff_of_true rfl nofun
  · rw [Option.isSome_map, Option.isSome_iff_exists]
    constructor
    · rintro ⟨⟨digits, suffix⟩, hsplit⟩ c hc
      obtain ⟨rfl, hlen⟩ := (splitAtByte_last_eq_some_iff hs).mp hsplit
      obtain ⟨d, rfl, hd⟩ := utf8Len_eq_one hlen
      rw [List.getLast?_concat] at hc
      exact Option.some.inj hc ▸ hd
    · intro hends
      have hlast := List.getLast?_eq_some_getLast hs
      refine ⟨(s.dropLast, [s.getLast hs]), (splitAtByte_last_eq_some_iff hs).mpr ⟨?_, ?_⟩⟩
      · exact (List.dropLast_append_getLast hs).symm
      · rw [utf8Len_cons, hends _ hlast]
        rfl

/-- The text without the space around it is a number and a unit of so many seconds. -/
def Reads (text : Str) (value unit : ℕ) : Prop :=
  ∃ digits suffix, trim text = digits ++ suffix ∧ Transcript.parseU64 digits = some value ∧
    unitSecs suffix = some unit

theorem utf8Len_of_unitSecs (h : unitSecs suffix = some unit) : utf8Len suffix = 1 := by
  unfold unitSecs at h
  split at h
  · rfl
  · rfl
  · rfl
  · rfl
  · cases h

theorem parseParts_eq_ok_iff {secs : ℕ} : parseParts s digits suffix = .ok secs ↔
    ∃ value unit, Transcript.parseU64 digits = some value ∧ unitSecs suffix = some unit ∧
      0 < value ∧ value * unit < 2 ^ 64 ∧ max (value * unit) minimumIntervalSecs = secs := by
  unfold parseParts
  cases hvalue : Transcript.parseU64 digits with
  | none => exact iff_of_false nofun fun ⟨_, _, h, _⟩ => nomatch h
  | some value =>
    dsimp only
    by_cases hzero : value = 0
    · rw [if_pos hzero]
      refine iff_of_false nofun ?_
      rintro ⟨value', _, hsame, -, hpos, -⟩
      obtain rfl := Option.some.inj hsame
      exact hpos.ne' hzero
    rw [if_neg hzero]
    cases hunit : unitSecs suffix with
    | none => exact iff_of_false nofun fun ⟨_, _, _, h, _⟩ => nomatch h
    | some unit =>
      dsimp only
      constructor
      · intro h
        split_ifs at h with hfits
        exact ⟨value, unit, rfl, rfl, Nat.pos_of_ne_zero hzero, hfits, Except.ok.inj h⟩
      · rintro ⟨value', unit', hsame, hsame', -, hfits, hmax⟩
        obtain rfl := Option.some.inj hsame
        obtain rfl := Option.some.inj hsame'
        rw [if_pos hfits, hmax]

theorem parseInterval_eq_ok_iff {text : Str} {secs : ℕ} :
    parseInterval text = some (.ok secs) ↔ ∃ value unit, Reads text value unit ∧ 0 < value ∧
      value * unit < 2 ^ 64 ∧ max (value * unit) minimumIntervalSecs = secs := by
  unfold parseInterval Reads
  dsimp only
  generalize trim text = s
  split_ifs with hs
  · subst hs
    refine iff_of_false nofun ?_
    rintro ⟨value, unit, ⟨digits, suffix, hsplit, -, hunit⟩, -⟩
    obtain ⟨-, rfl⟩ := List.append_eq_nil_iff.mp hsplit.symm
    cases hunit
  · rw [Option.map_eq_some_iff]
    constructor
    · rintro ⟨⟨digits, suffix⟩, hsplit, hok⟩
      obtain ⟨value, unit, hvalue, hunit, hrest⟩ := parseParts_eq_ok_iff.1 hok
      exact ⟨value, unit, ⟨digits, suffix, ((splitAtByte_last_eq_some_iff hs).mp hsplit).1, hvalue,
        hunit⟩, hrest⟩
    · rintro ⟨value, unit, ⟨digits, suffix, hsplit, hvalue, hunit⟩, hrest⟩
      exact ⟨(digits, suffix),
        (splitAtByte_last_eq_some_iff hs).mpr ⟨hsplit, utf8Len_of_unitSecs hunit⟩,
        parseParts_eq_ok_iff.2 ⟨value, unit, hvalue, hunit, hrest⟩⟩

/-- Parsing does not panic, and a task of an interval that is accepted has sound dates. -/
structure SoundInterval (text : Str) (now : DateTime) (lastFired : Option DateTime)
    (recurring fireImmediately : Bool) : Prop where
  parsed : (parseInterval text).isSome = true
  dated : ∀ secs, parseInterval text = some (.ok secs) →
    SoundSchedule now lastFired secs recurring fireImmediately

theorem soundInterval_iff (text : Str) (now : DateTime) (lastFired : Option DateTime)
    (recurring fireImmediately : Bool) :
    SoundInterval text now lastFired recurring fireImmediately ↔ EndsInByte (trim text) ∧
      ∀ value unit, Reads text value unit → 0 < value → value * unit < 2 ^ 64 →
        FitsCalendar now lastFired (max (value * unit) minimumIntervalSecs) recurring
          fireImmediately := by
  constructor
  · rintro ⟨hparsed, hdated⟩
    refine ⟨parseInterval_isSome_iff.1 hparsed, fun value unit hreads hpos hfits => ?_⟩
    exact fits_of_soundSchedule
      (hdated _ (parseInterval_eq_ok_iff.2 ⟨value, unit, hreads, hpos, hfits, rfl⟩))
  · rintro ⟨hends, hfits⟩
    refine ⟨parseInterval_isSome_iff.2 hends, fun secs hok => ?_⟩
    obtain ⟨value, unit, hreads, hpos, hlt, rfl⟩ := parseInterval_eq_ok_iff.1 hok
    exact soundSchedule_of_fits (lt_of_lt_of_le (by decide) (Nat.le_max_right ..))
      (hfits value unit hreads hpos hlt)

/-- A unit of more than one byte panics, and the cast of the largest count is negative. -/
theorem interval_not_sound :
    (¬ ∀ text, (parseInterval text).isSome = true) ∧
      ∃ secs, parseInterval "18446744073709551615s".toList = some (.ok secs) ∧
        ¬ ∀ now, SoundSchedule now none secs true false := by
  refine ⟨fun hall => absurd (hall ['5', 'é']) (by decide), 18446744073709551615, by decide, ?_⟩
  intro hall
  have hcast := (hall ⟨0, by decide, by decide⟩).cast
  exact absurd hcast (by decide)

end GrokBuild.Scheduler
