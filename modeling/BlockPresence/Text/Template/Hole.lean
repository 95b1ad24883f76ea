import BlockPresence.Text.Template.Fault
import BlockPresence.Text.Template.Subject

/-!
# Holes

A hole is written `{field}`, with an optional conversion (`!r` and `!a` quote what the field comes to, `!s` takes its
text) and an optional layout after a colon. The field is `name`, or leads from it to a character (`name[0]`) or a member
(`name.upper`). Layouts may have holes of their own, for the same value.

Where a hole ends does not depend on the value (`readHole`). What stands in it is looked at when it is filled: first the
field, then the conversion, then the layout (`Hole.fill`).
-/

namespace BlockPresence.Template

/-- A place for the value, as it is written. -/
structure Hole where
  field : List Char
  conversion : Option Char := none
  layout : List Char := []
deriving DecidableEq, Repr

def openBrace : Char := '\x7b'

def closeBrace : Char := '\x7d'

/-! ## Where a hole ends -/

/-- The field at the start of a hole, the mark that ends it (a closing brace, `!` or `:`) and what follows the mark.
Inside square brackets the marks count as text. -/
def splitField (bracketed : Bool) : List Char → Except Fault (List Char × Char × List Char)
  | [] => .error .unclosed
  | c :: rest =>
    if !bracketed ∧ c = openBrace then .error .nestedOpen
    else if !bracketed ∧ (c = closeBrace ∨ c = ':' ∨ c = '!') then .ok ([], c, rest)
    else
      let bracketed := if bracketed then c ≠ ']' else c = '['
      (splitField bracketed rest).map fun (field, mark, after) => (c :: field, mark, after)

/-- The layout at the start of the text, up to the closing brace that ends its hole, and what follows that brace. -/
def splitLayout (depth : Nat) : List Char → Except Fault (List Char × List Char)
  | [] => .error .unclosedLayout
  | c :: rest =>
    if c = closeBrace ∧ depth = 0 then .ok ([], rest)
    else
      let depth := if c = openBrace then depth + 1 else if c = closeBrace then depth - 1 else depth
      (splitLayout depth rest).map fun (layout, after) => (c :: layout, after)

/-- The conversion and layout of a hole, after the mark that ends its field, and what follows the hole. -/
def splitMarks (mark : Char) (rest : List Char) : Except Fault (Option Char × List Char × List Char) :=
  if mark = closeBrace then .ok (none, [], rest)
  else if mark = ':' then (splitLayout 0 rest).map fun (layout, after) => (none, layout, after)
  else
    match rest with
    | [] => .error .noConversion
    | [_] => .error .unclosedLayout
    | conversion :: c :: rest =>
      if c = closeBrace then .ok (some conversion, [], rest)
      else if c = ':' then (splitLayout 0 rest).map fun (layout, after) => (some conversion, layout, after)
      else .error .afterConversion

/-- Reads the hole after an opening brace. Returns it with what follows it. -/
def readHole (cs : List Char) : Except Fault (Hole × List Char) := do
  let (field, mark, rest) ← splitField false cs
  let (conversion, layout, rest) ← splitMarks mark rest
  return (⟨field, conversion, layout⟩, rest)

theorem exists_of_map_eq_ok {ε α β : Type} {f : α → β} {x : Except ε α} {b : β} (h : x.map f = .ok b) :
    ∃ a, x = .ok a ∧ f a = b := by
  cases x with
  | error e => cases h
  | ok a => exact ⟨a, rfl, Except.ok.inj h⟩

theorem length_lt_of_splitField {b : Bool} {cs field rest : List Char} {mark : Char}
    (h : splitField b cs = .ok (field, mark, rest)) : rest.length < cs.length := by
  induction cs generalizing b field with
  | nil => cases h
  | cons c cs ih =>
    rw [splitField] at h
    split at h
    · cases h
    split at h
    · cases h; exact Nat.lt_succ_self _
    · obtain ⟨⟨field', mark', rest'⟩, hs, he⟩ := exists_of_map_eq_ok h
      cases he
      exact Nat.lt_succ_of_lt (ih hs)

theorem length_le_of_splitLayout {depth : Nat} {cs layout rest : List Char}
    (h : splitLayout depth cs = .ok (layout, rest)) : rest.length ≤ cs.length := by
  induction cs generalizing depth layout with
  | nil => cases h
  | cons c cs ih =>
    rw [splitLayout] at h
    split at h
    · cases h; exact Nat.le_succ _
    · obtain ⟨⟨layout', rest'⟩, hs, he⟩ := exists_of_map_eq_ok h
      cases he
      exact Nat.le_succ_of_le (ih hs)

theorem length_le_of_splitMarks {mark : Char} {cs layout rest : List Char} {conversion : Option Char}
    (h : splitMarks mark cs = .ok (conversion, layout, rest)) : rest.length ≤ cs.length := by
  have key : ∀ {c : Option Char} {cs : List Char},
      (splitLayout 0 cs).map (fun (layout, after) => (c, layout, after)) = .ok (conversion, layout, rest) →
      rest.length ≤ cs.length := by
    intro c cs h
    obtain ⟨⟨layout', rest'⟩, hs, he⟩ := exists_of_map_eq_ok h
    cases he
    exact length_le_of_splitLayout hs
  unfold splitMarks at h
  split at h
  · cases h; exact Nat.le_refl _
  split at h
  · exact key h
  split at h
  · cases h
  · cases h
  · split at h
    · cases h; exact Nat.le_add_right _ 2
    split at h
    · exact Nat.le_trans (key h) (Nat.le_add_right _ 2)
    · cases h

theorem length_lt_of_readHole {cs rest : List Char} {hole : Hole} (h : readHole cs = .ok (hole, rest)) :
    rest.length < cs.length := by
  unfold readHole at h
  match hn : splitField false cs with
  | .error f => simp [hn, bind, Except.bind] at h
  | .ok (field, mark, afterField) =>
    match hm : splitMarks mark afterField with
    | .error f => simp [hn, hm, bind, Except.bind] at h
    | .ok (conversion, layout, afterHole) =>
      have h₁ := length_lt_of_splitField hn
      have h₂ := length_le_of_splitMarks hm
      simp only [hn, hm, bind, Except.bind, pure, Except.pure] at h
      cases h
      omega

/-! ## What a hole asks for -/

/-- Whether a character goes on with a name, instead of starting a part. -/
def isNameChar (c : Char) : Bool := c ≠ '.' && c ≠ '['

/-- Checks that a field asks for the value. A name that is empty or a number asks for a position. -/
def checkName (name : List Char) : Except Fault Unit :=
  match Text.readNumber name with
  | (some index, rest) =>
    if Text.maxNumber < index then .error .tooManyDigits
    else .error (if rest.isEmpty then .positional index else .unknownField (String.ofList name))
  | (none, []) => .error (.positional 0)
  | (none, _) => if name = ['n', 'a', 'm', 'e'] then .ok () else .error (.unknownField (String.ofList name))

/-- Reads what stands in brackets. What is no number is no position. -/
def readPosition (cs : List Char) : Except Fault (Option Nat) :=
  match Text.readNumber cs with
  | (some index, rest) =>
    if Text.maxNumber < index then .error .tooManyDigits else .ok (if rest.isEmpty then some index else none)
  | (none, []) => .error .emptyPart
  | (none, _) => .ok none

/-- What a subject has at a position. -/
def Subject.item (s : Subject) (position? : Option Nat) : Except Fault Subject :=
  match s, position? with
  | text cs, some index => cs[index]?.elim (.error (.pastEnd "string")) fun c => .ok (text [c])
  | tuple cs, some index => cs[index]?.elim (.error (.pastEnd "tuple")) fun c => .ok (cls c)
  | _, _ => .error .noItem

/-- Follows the rest of a field from a subject. -/
def follow (s : Subject) : List Char → Except Fault Subject
  | [] => .ok s
  | c :: rest =>
    if c = '[' then
      match readPosition (rest.takeWhile (· ≠ ']')) >>= s.item with
      | .error f => .error f
      | .ok part => follow part ((rest.dropWhile (· ≠ ']')).drop 1)
    else if c = '.' then
      let member := rest.takeWhile isNameChar
      if member.isEmpty then .error .emptyPart
      else
        match s.member? (String.ofList member) with
        | none => .error (.noMember (String.ofList member))
        | some part => follow part (rest.dropWhile isNameChar)
    else .error .afterBracket
termination_by field => field.length
decreasing_by
  · have := (List.dropWhile_sublist (· ≠ ']') (l := rest)).length_le
    simp only [List.length_drop, List.length_cons]
    omega
  · exact Nat.lt_succ_of_le (List.dropWhile_sublist _).length_le

/-- What a field comes to. -/
def select (value field : List Char) : Except Fault Subject := do
  checkName (field.takeWhile isNameChar)
  follow (.text value) (field.dropWhile isNameChar)

/-- What becomes of a subject before it is laid out. -/
inductive Conversion where
  | plain
  | shown
  | quoted
  | quotedAscii
deriving DecidableEq, Repr

namespace Conversion

/-- The conversion that a letter asks for. A null character asks for none. -/
def ofLetter : Char → Except Fault Conversion
  | 's' => .ok .shown
  | 'r' => .ok .quoted
  | 'a' => .ok .quotedAscii
  | c => if c = '\x00' then .ok .plain else .error (.unknownConversion c)

/-- A subject, converted. -/
def apply (s : Subject) : Conversion → Subject
  | .plain => s
  | .shown => .ofString s.display
  | .quoted => .ofString s.quoted
  | .quotedAscii => .ofString s.quotedAscii

end Conversion

/-! ## Filling a hole -/

/-- A subject, laid out. Only texts can be, but an empty layout fits everything. -/
def Subject.layOut (s : Subject) (layout : List Char) : Except Fault (List Char) :=
  match s with
  | text cs => ((Layout.read layout).map fun l => l.apply cs).mapError .layout
  | _ => if layout.isEmpty then .ok s.display.toList else .error .noLayout

/-- What stands for a hole when the value is filled in. A layout with holes of its own is filled by `expand` before it
is read. -/
def Hole.fill (value : List Char) (expand : List Char → Except Fault (List Char)) (h : Hole) :
    Except Fault (List Char) := do
  let subject ← select value h.field
  let conversion ← h.conversion.elim (.ok .plain) Conversion.ofLetter
  let layout ← if openBrace ∈ h.layout then expand h.layout else .ok h.layout
  (conversion.apply subject).layOut layout

end BlockPresence.Template
