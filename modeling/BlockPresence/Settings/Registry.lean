import BlockPresence.Advice.Templates

/-!
# Rule registries

A registry describes rules: their names, styles, messages and instructions. An entry is found by the code of its rule
or, failing that, by the symbol. The entry for defaults is no rule and serves instructions only.

Every look-up goes through the entry of the rule that is asked for, and treats a value that is missing, empty or false
as not given.
-/

namespace BlockPresence

/-- The description of rules, by key and in order. -/
structure Registry where
  entries : Fields

namespace Registry

def empty : Registry := ⟨[]⟩

/-- The registry that a value describes. Whatever is no mapping describes none. -/
def ofValue : Value → Registry
  | .map fields => ⟨fields⟩
  | _ => empty

/-- The key of the defaults. -/
def defaultsKey : String := entryMark ++ "_default"

/-- Whether a key is that of a rule. -/
def isRuleKey (key : String) : Bool := entryMark.toList.isPrefixOf key.toList && key != defaultsKey

/-- The entry of a rule, by its code or its symbol. -/
def entry? (r : Registry) (code : String) : Option Fields :=
  match r.entries.lookup (entryMark ++ code) with
  | some (.map entry) => some entry
  | _ =>
    r.entries.findSome? fun
      | (key, .map entry) =>
        if isRuleKey key && (entry.lookup "symbol").any (Value.isText code) then some entry else none
      | _ => none

/-- What the entry of a rule has under a key. -/
def field? (r : Registry) (code key : String) : Option Value := (r.entry? code).bind fun entry => entry.lookup key

/-- The text of what the entry of a rule has under a key, if it is given. -/
def givenText? (r : Registry) (code key : String) : Option String :=
  ((r.field? code key).filter Value.isTruthy).map Value.toText

/-- The style of a rule whose configuration names none. -/
def defaultStyle? (r : Registry) (code : String) : Option String := r.givenText? code "default_style"

def shortDescription? (r : Registry) (code : String) : Option String := r.givenText? code "short_description"

/-- What the entry of a rule lists as its styles, if it says anything about them. -/
def supportedStyles (r : Registry) (code : String) : Except Fault (Option (List Value)) :=
  match r.field? code "supported_styles" with
  | none => .ok none
  | some v => v.items?.elim (.error (.unlistedStyles v)) fun items => .ok (some items)

/-- The instructions when the registry has none. -/
def lastInstructions : String := "Fix the violation at the reported location."

/-- Whether a text occurs in another one. -/
def occursIn (text : List Char) : List Char → Bool
  | [] => text.isEmpty
  | c :: rest => text.isPrefixOf (c :: rest) || occursIn text rest

/-- The instructions that the defaults of a registry hold. -/
def defaultInstructions (defaults : Value) : Except Fault String :=
  let key := "manual_instructions"
  if !defaults.isTruthy then .ok lastInstructions
  else
    match defaults with
    | .map fields => .ok ((fields.lookup key).elim lastInstructions Value.toText)
    | .str s => if occursIn key.toList s.toList then .error (.unreadableDefaults defaults) else .ok lastInstructions
    | .list items =>
      if items.any (Value.isText key) then .error (.unreadableDefaults defaults) else .ok lastInstructions
    | _ => .error (.unreadableDefaults defaults)

/-- How to mend a violation by hand: from the entry of the rule, else from the defaults. -/
def manualInstructions (r : Registry) (code : String) : Except Fault String :=
  match r.field? code "manual_instructions" with
  | some v => .ok v.toText
  | none => (r.entries.lookup defaultsKey).elim (.ok lastInstructions) defaultInstructions

/-- The message template for a switch, among the messages of an entry. -/
def template? (messages : Value) (s : Switch) : Option Template :=
  ((messages.field? s.key).filter Value.isTruthy).map fun v => ⟨v.toText⟩

/-- The message templates of a rule. All switches must have one. -/
def templates (r : Registry) (code : String) : Except Fault Templates :=
  match r.entry? code with
  | none => .error (.noEntry code)
  | some entry =>
    let messages := (entry.lookup "messages").getD .null
    match Switch.all.filter fun s => (template? messages s).isNone with
    | [] => .ok ⟨Switch.all.filterMap fun s => (template? messages s).map fun t => (s, t)⟩
    | missing => .error (.noMessages code missing)

end Registry

end BlockPresence
