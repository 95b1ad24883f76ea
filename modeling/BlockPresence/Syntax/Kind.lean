/-!
# Kinds of nodes

A syntax tree of Ruby source distinguishes its nodes by the names of their kinds. Every kind that matters for block
presence has a constructor; all others are kept under their name, which is none of the reserved ones. So kinds and their
names determine each other (`Kind.name_ofName`, `Kind.ofName_name`).
-/

namespace BlockPresence

/-- The parameters that bind a local name. -/
inductive ParamKind where
  | required
  | optional
  | rest
  | keyword
  | optionalKeyword
  | keywordRest
  /-- The block parameter of a method, `&name`. -/
  | block
  /-- A block-local variable. -/
  | shadow
  /-- The only parameter of a block. -/
  | sole
deriving DecidableEq, Repr

/-- The loops, by the sense of their condition and by whether it is tested before or after the body. -/
inductive LoopKind where
  | whileTrue
  | untilTrue
  | whileTrueAfter
  | untilTrueAfter
deriving DecidableEq, Repr

/-- The names of the kinds that have a constructor. -/
def reservedNames : List String :=
  ["def", "defs", "send", "defined?", "yield", "lvar", "lvasgn", "begin", "if", "and", "or", "block",
   "while", "until", "while_post", "until_post",
   "arg", "optarg", "restarg", "kwarg", "kwoptarg", "kwrestarg", "blockarg", "shadowarg", "procarg0"]

/-- The kind of a node. -/
inductive Kind where
  /-- A method definition: name, parameters, body. -/
  | method
  /-- A method definition on an object: the object, name, parameters, body. -/
  | singletonMethod
  /-- A method call: receiver, name, arguments. -/
  | call
  /-- The query whether an expression is defined. -/
  | definedQuery
  /-- A call of the block that was passed. -/
  | yielding
  /-- A read of a local variable. -/
  | localRead
  /-- A write to a local variable. -/
  | localWrite
  /-- A parenthesised or sequenced group. -/
  | group
  /-- A conditional: condition, branches. -/
  | cond
  | conj
  | disj
  /-- A call with a block: the call, the parameters of the block, its body. -/
  | block
  /-- A loop: condition, body. -/
  | loop (l : LoopKind)
  | param (p : ParamKind)
  | other (name : String) (isOther : name ∉ reservedNames)
deriving DecidableEq

namespace Kind

/-- The kinds that have a constructor, in the order of their names. -/
def reserved : List Kind :=
  [method, singletonMethod, call, definedQuery, yielding, localRead, localWrite, group, cond, conj, disj, block,
   loop .whileTrue, loop .untilTrue, loop .whileTrueAfter, loop .untilTrueAfter,
   param .required, param .optional, param .rest, param .keyword, param .optionalKeyword, param .keywordRest,
   param .block, param .shadow, param .sole]

def name : Kind → String
  | method => "def"
  | singletonMethod => "defs"
  | call => "send"
  | definedQuery => "defined?"
  | yielding => "yield"
  | localRead => "lvar"
  | localWrite => "lvasgn"
  | group => "begin"
  | cond => "if"
  | conj => "and"
  | disj => "or"
  | block => "block"
  | loop .whileTrue => "while"
  | loop .untilTrue => "until"
  | loop .whileTrueAfter => "while_post"
  | loop .untilTrueAfter => "until_post"
  | param .required => "arg"
  | param .optional => "optarg"
  | param .rest => "restarg"
  | param .keyword => "kwarg"
  | param .optionalKeyword => "kwoptarg"
  | param .keywordRest => "kwrestarg"
  | param .block => "blockarg"
  | param .shadow => "shadowarg"
  | param .sole => "procarg0"
  | other name _ => name

theorem reserved_map_name : reserved.map name = reservedNames := rfl

/-- The kind of a name. -/
def ofName (s : String) : Kind :=
  match h : reserved.find? fun k => k.name == s with
  | some k => k
  | none => other s (by
      rw [← reserved_map_name, List.mem_map]
      rintro ⟨k, hk, rfl⟩
      exact List.find?_eq_none.mp h k hk (beq_self_eq_true _))

theorem name_ofName (s : String) : (ofName s).name = s := by
  unfold ofName
  split
  · rename_i k h
    have hk := List.find?_some h
    exact eq_of_beq hk
  · rfl

theorem ofName_name (k : Kind) : ofName k.name = k := by
  cases k with
  | other s hs =>
    have hn : reserved.find? (fun k => k.name == s) = none := by
      rw [List.find?_eq_none]
      intro k hk he
      exact hs (reserved_map_name ▸ List.mem_map.mpr ⟨k, hk, eq_of_beq he⟩)
    unfold ofName
    split
    · rename_i k h
      rw [show (other s hs).name = s from rfl, hn] at h
      cases h
    · rfl
  | loop l => cases l <;> decide
  | param p => cases p <;> decide
  | _ => decide

/-- Whether a node of this kind defines a method. -/
def isDefinition : Kind → Bool
  | method | singletonMethod => true
  | _ => false

/-- Whether a node of this kind binds a local name. -/
def isParam : Kind → Bool
  | param _ => true
  | _ => false

end Kind

end BlockPresence
