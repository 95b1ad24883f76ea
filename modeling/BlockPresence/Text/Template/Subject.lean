import BlockPresence.Text.Quoted

/-!
# Subjects of fields

A field of a template starts at a value and goes from there to members and to characters, such as in `name.upper` and in
`name[0]`. What it can come to is a subject: a text, the class of a subject, an operation of a class, or one of the few
things that these have as members in turn.

Operations are members by their names; a template cannot carry them out. Descriptions of operations are not kept.
-/

namespace BlockPresence.Template

/-- The classes that subjects belong to. -/
inductive Class where
  | text
  /-- The class that every class is based on. -/
  | base
  /-- The class of classes. -/
  | cls
  /-- Operations by name, of a certain subject. -/
  | method
  /-- Operations behind a notation such as the sum, of a certain subject. -/
  | slot
  /-- Operations by name, of a class. -/
  | unboundMethod
  /-- Operations behind a notation, of a class. -/
  | unboundSlot
  | null
  | tuple
deriving DecidableEq, Repr

/-- How an operation belongs to the class that defines it. -/
inductive Operation.Form where
  /-- An operation by name. -/
  | method
  /-- An operation behind a notation. -/
  | slot
  /-- An operation of the defining class itself, whatever subject is asked. -/
  | ofDefiner
  /-- An operation of the class that is asked, or of the class of the subject that is asked. -/
  | ofClass
deriving DecidableEq, Repr

/-- An operation of a class. -/
structure Operation where
  name : String
  form : Operation.Form
deriving DecidableEq, Repr

namespace Class

def name : Class → String
  | text => "str"
  | base => "object"
  | cls => "type"
  | method => "builtin_function_or_method"
  | slot => "method-wrapper"
  | unboundMethod => "method_descriptor"
  | unboundSlot => "wrapper_descriptor"
  | null => "NoneType"
  | tuple => "tuple"

/-- The module that all the classes are in. -/
def moduleName : String := "builtins"

/-- What a class says of itself. -/
def description : Class → Option String
  | text => some <|
    "str(object='') -> str\nstr(bytes_or_buffer[, encoding[, errors]]) -> str\n\n" ++
    "Create a new string object from the given object. If encoding or\n" ++
    "errors is specified, then the object must expose a data buffer\n" ++
    "that will be decoded using the given encoding and error handler.\n" ++
    "Otherwise, returns the result of object.__str__() (if defined)\nor repr(object).\n" ++
    "encoding defaults to sys.getdefaultencoding().\nerrors defaults to 'strict'."
  | base => some <|
    "The base class of the class hierarchy.\n\n" ++
    "When called, it accepts no arguments and returns a new featureless\n" ++
    "instance that has no instance attributes and cannot be given any.\n"
  | cls => some "type(object) -> the object's type\ntype(name, bases, dict, **kwds) -> a new type"
  | tuple => some <|
    "Built-in immutable sequence.\n\nIf no argument is given, the constructor returns an empty tuple.\n" ++
    "If iterable is specified the tuple is initialized from iterable's items.\n\n" ++
    "If the argument is a tuple, the return value is the same object."
  | null => none
  | c => some s!"<attribute '__doc__' of '{c.name}' objects>"

/-- The classes that a class is based on, itself first. -/
def line : Class → List Class
  | base => [base]
  | c => [c, base]

/-! ## Operations -/

def comparisons : List String := ["__lt__", "__le__", "__eq__", "__ne__", "__gt__", "__ge__"]

/-- The notations that texts and tuples share. -/
def sequenceSlots : List String :=
  ["__hash__", "__iter__", "__len__", "__getitem__", "__add__", "__mul__", "__rmul__", "__contains__"] ++ comparisons

/-- The operations of a class behind a notation. -/
def slots : Class → List String
  | text => ["__repr__", "__getattribute__", "__str__", "__mod__", "__rmod__"] ++ sequenceSlots
  | base =>
    ["__repr__", "__getattribute__", "__str__", "__hash__", "__setattr__", "__delattr__", "__init__"] ++ comparisons
  | cls => ["__repr__", "__getattribute__", "__call__", "__setattr__", "__delattr__", "__init__", "__or__", "__ror__"]
  | method | slot => ["__repr__", "__getattribute__", "__hash__", "__call__"] ++ comparisons
  | unboundMethod | unboundSlot => ["__repr__", "__getattribute__", "__call__", "__get__"]
  | null => ["__repr__", "__bool__"]
  | tuple => ["__repr__", "__getattribute__"] ++ sequenceSlots

/-- The operations of a class by name. -/
def methods : Class → List String
  | text =>
    ["encode", "replace", "split", "rsplit", "join", "capitalize", "casefold", "title", "center", "count", "expandtabs",
     "find", "partition", "index", "ljust", "lower", "lstrip", "rfind", "rindex", "rjust", "rstrip", "rpartition",
     "splitlines", "strip", "swapcase", "translate", "upper", "startswith", "endswith", "removeprefix", "removesuffix",
     "isascii", "islower", "isupper", "istitle", "isspace", "isdecimal", "isdigit", "isnumeric", "isalpha", "isalnum",
     "isidentifier", "isprintable", "zfill", "format", "format_map", "__format__", "__sizeof__", "__getnewargs__"]
  | base => ["__reduce_ex__", "__reduce__", "__getstate__", "__format__", "__sizeof__", "__dir__"]
  | cls => ["mro", "__subclasses__", "__instancecheck__", "__subclasscheck__", "__dir__", "__sizeof__"]
  | method | slot | unboundMethod | unboundSlot => ["__reduce__"]
  | null => []
  | tuple => ["__getnewargs__", "index", "count"]

/-- The operations that belong to a class itself where it defines them. -/
def definerMethods : Class → List String
  | text => ["__new__", "maketrans"]
  | base | cls | null | tuple => ["__new__"]
  | method | slot | unboundMethod | unboundSlot => []

/-- The operations that belong to whatever class is asked. -/
def classMethods : Class → List String
  | base => ["__subclasshook__", "__init_subclass__"]
  | cls => ["__prepare__"]
  | tuple => ["__class_getitem__"]
  | _ => []

/-- The operations that a class defines. -/
def operations (c : Class) : List Operation :=
  c.slots.map (⟨·, .slot⟩) ++ c.methods.map (⟨·, .method⟩) ++ c.definerMethods.map (⟨·, .ofDefiner⟩) ++
    c.classMethods.map (⟨·, .ofClass⟩)

/-- The operation of a name and the class that defines it, which is the first one on the line of the class. -/
def operation? (c : Class) (name : String) : Option (Class × Operation) :=
  c.line.findSome? fun d => (d.operations.find? fun o => o.name == name).map (d, ·)

end Class

/-- What a field can come to. -/
inductive Subject where
  | text (cs : List Char)
  | null
  | cls (c : Class)
  | tuple (cs : List Class)
  /-- An operation of the class that defines it. -/
  | unbound (definer : Class) (o : Operation)
  /-- An operation of a subject, which got it from the class that defines it. -/
  | bound (owner : Subject) (definer : Class) (o : Operation)

namespace Subject

def ofString (s : String) : Subject := text s.toList

def ofString? : Option String → Subject
  | some s => ofString s
  | none => null

/-- The class of a subject. -/
def classOf : Subject → Class
  | text _ => .text
  | null => .null
  | cls _ => .cls
  | tuple _ => .tuple
  | unbound _ o => if o.form = .slot then .unboundSlot else .unboundMethod
  | bound _ _ o => if o.form = .slot then .slot else .method

/-! ## Text -/

def classText (c : Class) : String := s!"<class '{c.name}'>"

/-- The address that every bound operation shows, in the place of the real one, which differs from run to run. -/
def address : String := "0x7f0000000000"

/-- The text of a subject that is no text. -/
def display : Subject → String
  | text cs => String.ofList cs
  | null => "None"
  | cls c => classText c
  | tuple [c] => s!"({classText c},)"
  | tuple cs => "(" ++ ", ".intercalate (cs.map classText) ++ ")"
  | unbound d o =>
    let form := if o.form = .slot then "slot wrapper" else "method"
    s!"<{form} '{o.name}' of '{d.name}' objects>"
  | bound owner _ o =>
    let form := if o.form = .slot then s!"method-wrapper '{o.name}'" else s!"built-in method {o.name}"
    s!"<{form} of {owner.classOf.name} object at {address}>"

/-- The text of a subject, with texts in quotes. -/
def quoted : Subject → String
  | text cs => Text.quoted (String.ofList cs)
  | s => s.display

/-- The text of a subject in ASCII alone, with texts in quotes. -/
def quotedAscii : Subject → String
  | text cs => Text.quotedAscii (String.ofList cs)
  | s => s.display

/-! ## Members -/

/-- An operation of a subject. -/
def ofOperation (s : Subject) (definer : Class) (o : Operation) : Subject :=
  match o.form with
  | .method | .slot => bound s definer o
  | .ofDefiner => bound (cls definer) definer o
  | .ofClass => bound (cls s.classOf) definer o

/-- An operation of a class, asked of the class. -/
def ofClassOperation (c definer : Class) (o : Operation) : Subject :=
  match o.form with
  | .method | .slot => unbound definer o
  | .ofDefiner => bound (cls definer) definer o
  | .ofClass => bound (cls c) definer o

/-- The member that a class has as such. -/
def classMember? (c : Class) : String → Option Subject
  | "__name__" | "__qualname__" => some (ofString c.name)
  | "__module__" => some (ofString Class.moduleName)
  | "__doc__" => some (ofString? c.description)
  | "__base__" => some (c.line[1]?.elim null cls)
  | "__bases__" => some (tuple (c.line.drop 1))
  | "__mro__" => some (tuple c.line)
  | _ => none

/-- The member that an operation of a class has as such. -/
def unboundMember? (definer : Class) (o : Operation) : String → Option Subject
  | "__name__" => some (ofString o.name)
  | "__qualname__" => some (ofString s!"{definer.name}.{o.name}")
  | "__objclass__" => some (cls definer)
  | _ => none

/-- The member that an operation of a subject has as such. An operation behind a notation is named after the class that
defines it, an operation by name after the class of its owner or after the class that is its owner. -/
def boundMember? (owner : Subject) (definer : Class) (o : Operation) : String → Option Subject
  | "__self__" => some owner
  | "__module__" => if o.form = .slot then none else some null
  | "__qualname__" =>
    if o.form = .slot then unboundMember? definer o "__qualname__"
    else
      let c := match owner with
        | cls c => c
        | _ => owner.classOf
      unboundMember? c o "__qualname__"
  | "__objclass__" => if o.form = .slot then some (cls definer) else none
  | name => unboundMember? definer o name

/-- The member that a subject has as such, besides its class and the operations of its class. -/
def ownMember? (s : Subject) (name : String) : Option Subject :=
  match s with
  | cls c => classMember? c name
  | unbound d o => unboundMember? d o name
  | bound owner d o => boundMember? owner d o name
  | text _ | null | tuple _ => if name = "__doc__" then some (ofString? s.classOf.description) else none

/-- The operation of a name that a subject has. A class has its own operations before those of all classes. -/
def operation? (s : Subject) (name : String) : Option Subject :=
  let asSubject := (s.classOf.operation? name).map fun (d, o) => s.ofOperation d o
  match s with
  | cls c => ((c.operation? name).map fun (d, o) => ofClassOperation c d o) <|> asSubject
  | _ => asSubject

/-- The member of a name that a subject has. -/
def member? (s : Subject) (name : String) : Option Subject :=
  if name = "__class__" then some (cls s.classOf) else s.ownMember? name <|> s.operation? name

end Subject

end BlockPresence.Template
