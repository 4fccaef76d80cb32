import GrokBuild.Text.Lines
import Mathlib.Data.List.Count

/-!
# Lines with their terminators

A text is its lines, each with the terminator it has there; put together again with their
own terminators they give the text back. Joined with a newline instead they give it back
exactly when no line before the last ends in `\r\n`.
-/

namespace GrokBuild.Text

inductive Terminator where
  | none
  | lf
  | crlf
deriving DecidableEq, Repr

/-- What stands between a line with this terminator and the next. A line that had none,
being the last, is parted from a line put after it by a newline. -/
def Terminator.text : Terminator → Str
  | .none => ['\n']
  | .lf => ['\n']
  | .crlf => ['\r', '\n']

def terminator (piece : Str) : Terminator :=
  if endsWith piece ['\r', '\n'] then .crlf else if endsWith piece ['\n'] then .lf else .none

/-- The lines of a text, the last of which has no terminator; it is empty after a final
newline. -/
def terminatedLines (s : Str) : List (Str × Terminator) :=
  if s = [] then [([], .none)]
  else (splitInclusive s).map (fun piece => (chompLine piece, terminator piece)) ++
    if endsNl s then [([], .none)] else []

def joinTerminated : List (Str × Terminator) → Str
  | [] => []
  | [x] => x.1
  | x :: y :: rest => x.1 ++ x.2.text ++ joinTerminated (y :: rest)

theorem joinTerminated_cons {rest : List (Str × Terminator)} (x : Str × Terminator)
    (h : rest ≠ []) : joinTerminated (x :: rest) = x.1 ++ x.2.text ++ joinTerminated rest := by
  cases rest with
  | nil => exact absurd rfl h
  | cons y rest => rfl

/-! ## Joining with newlines -/

theorem joinLines_cons {ls : List Str} (l : Str) (h : ls ≠ []) :
    joinLines (l :: ls) = l ++ '\n' :: joinLines ls := by
  rw [joinLines, List.intercalate_cons_of_ne_nil h]
  simp [joinLines]

theorem length_joinTerminated (items : List (Str × Terminator)) :
    (joinTerminated items).length =
      (joinLines (items.map Prod.fst)).length + items.dropLast.countP (·.2 = .crlf) := by
  induction items with
  | nil => rfl
  | cons x rest ih =>
    by_cases hrest : rest = []
    · subst hrest
      simp [joinTerminated, joinLines, List.intercalate]
    · rw [joinTerminated_cons x hrest, List.map_cons,
        joinLines_cons _ (by simpa using hrest), List.dropLast_cons_of_ne_nil hrest,
        List.countP_cons, List.length_append, List.length_append, ih, List.length_append,
        List.length_cons]
      cases x.2 <;> simp [Terminator.text] <;> omega

theorem joinTerminated_eq_joinLines_iff (items : List (Str × Terminator)) :
    joinTerminated items = joinLines (items.map Prod.fst) ↔
      ∀ x ∈ items.dropLast, x.2 ≠ .crlf := by
  constructor
  · intro h x hx hcrlf
    have hlen := length_joinTerminated items
    rw [h] at hlen
    have hpos : 0 < items.dropLast.countP (·.2 = .crlf) :=
      List.countP_pos_iff.mpr ⟨x, hx, by simpa using hcrlf⟩
    omega
  · intro h
    induction items with
    | nil => rfl
    | cons x rest ih =>
      by_cases hrest : rest = []
      · subst hrest
        simp [joinTerminated, joinLines, List.intercalate]
      · rw [List.dropLast_cons_of_ne_nil hrest] at h
        have hx := h x List.mem_cons_self
        rw [joinTerminated_cons x hrest, List.map_cons, joinLines_cons _ (by simpa using hrest),
          ih fun y hy => h y (List.mem_cons_of_mem _ hy)]
        cases hterm : x.2 with
        | crlf => exact absurd hterm hx
        | none => simp [Terminator.text]
        | lf => simp [Terminator.text]

end GrokBuild.Text
