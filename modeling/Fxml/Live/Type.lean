/-! The types that every world of live objects has, and the names of what they provide. -/

namespace Fxml.Live

inductive IteratorKind where
  | list
  | listBackwards
  | tuple
  | text
  | asciiText
  | keys
  | keysBackwards
  | values
  | items
  | members
deriving DecidableEq

inductive ViewKind where
  | keys
  | values
  | items
deriving DecidableEq

inductive BasicType where
  | object
  | type
  | enumType
  | enumeration
  | null
  | notImplemented
  | boolean
  | integer
  | number
  | complex
  | text
  | bytes
  | list
  | tuple
  | dict
  | view (kind : ViewKind)
  | mapping
  | iterator (kind : IteratorKind)
  | slice
  | parameterized
  | function
  | method
  | builtin
  | boundSlot
  | slot
  | methodDescriptor
  | fieldDescriptor
  | memberDescriptor
  | staticFunction
  | classFunction
  | observableValue
  | property
  | constant
  | computed
  | selection
  | invocation
  | valueAt
  | combination
  | propertyDeclaration
  | listDeclaration
  | eventDeclaration
  | event
  | listChange
  | observableList
  | bundle
  | builder
  | loader
deriving DecidableEq

namespace BasicType

def name : BasicType → String
  | object => "object"
  | type => "type"
  | enumType => "EnumType"
  | enumeration => "Enum"
  | null => "NoneType"
  | notImplemented => "NotImplementedType"
  | boolean => "bool"
  | integer => "int"
  | number => "float"
  | complex => "complex"
  | text => "str"
  | bytes => "bytes"
  | list => "list"
  | tuple => "tuple"
  | dict => "dict"
  | view .keys => "dict_keys"
  | view .values => "dict_values"
  | view .items => "dict_items"
  | mapping => "mappingproxy"
  | iterator .list => "list_iterator"
  | iterator .listBackwards => "list_reverseiterator"
  | iterator .tuple => "tuple_iterator"
  | iterator .text => "str_iterator"
  | iterator .asciiText => "str_ascii_iterator"
  | iterator .keys => "dict_keyiterator"
  | iterator .keysBackwards => "dict_reversekeyiterator"
  | iterator .values => "dict_valueiterator"
  | iterator .items => "dict_itemiterator"
  | iterator .members => "generator"
  | slice => "slice"
  | parameterized => "GenericAlias"
  | function => "function"
  | method => "method"
  | builtin => "builtin_function_or_method"
  | boundSlot => "method-wrapper"
  | slot => "wrapper_descriptor"
  | methodDescriptor => "method_descriptor"
  | fieldDescriptor => "getset_descriptor"
  | memberDescriptor => "member_descriptor"
  | staticFunction => "staticmethod"
  | classFunction => "classmethod"
  | observableValue => "ObservableValue"
  | property => "Property"
  | constant => "Constant"
  | computed => "Computed"
  | selection => "Selection"
  | invocation => "Invocation"
  | valueAt => "ValueAt"
  | combination => "Combination"
  | propertyDeclaration => "observable"
  | listDeclaration => "observable_list"
  | eventDeclaration => "event"
  | event => "Event"
  | listChange => "ListChange"
  | observableList => "ObservableList"
  | bundle => "ResourceBundle"
  | builder => "Builder"
  | loader => "Loader"

/-- The types that a type refines, the nearest first; all refine the type of objects. -/
def ancestors : BasicType → List BasicType
  | object => []
  | enumType => [type, object]
  | boolean => [integer, object]
  | property | constant | computed => [observableValue, object]
  | selection | invocation | valueAt | combination => [computed, observableValue, object]
  | observableList => [list, object]
  | bundle => [dict, object]
  | _ => [object]

def order (t : BasicType) : List BasicType := t :: t.ancestors

def isRefinable : BasicType → Bool
  | object | integer | number | text | list | dict | tuple | builder | loader => true
  | _ => false

/-- The type whose values hold something of their own, if the type is one or refines one. Classes can
refine only one such type.
-/
def core? (t : BasicType) : Option BasicType :=
  t.order.find? fun s => [integer, number, text, bytes, list, tuple, dict, type].contains s

/-- Whether objects of the type have attributes of their own besides what the type provides. -/
def isOpen : BasicType → Bool
  | enumeration | function | observableValue | property | constant | computed | selection
  | invocation | valueAt | combination | propertyDeclaration | listDeclaration | eventDeclaration
  | event | listChange | observableList | bundle | builder | loader => true
  | _ => false

end BasicType

inductive ProvisionKind where
  | slot
  | method
  | function
  | classMethod
  | staticMethod
  | field
  | memberField
deriving DecidableEq

/-- What the types that are there from the beginning provide, by name. -/
structure Provisions where
  slots : List String := []
  methods : List String := []
  functions : List String := []
  classMethods : List String := []
  staticMethods : List String := []
  fields : List String := []
  memberFields : List String := []

namespace Provisions

def comparisons : List String := ["__lt__", "__le__", "__eq__", "__ne__", "__gt__", "__ge__"]

def arithmetic : List String :=
  ["__add__", "__radd__", "__sub__", "__rsub__", "__mul__", "__rmul__", "__mod__", "__rmod__",
    "__divmod__", "__rdivmod__", "__pow__", "__rpow__", "__neg__", "__pos__", "__abs__",
    "__bool__", "__int__", "__float__", "__floordiv__", "__rfloordiv__", "__truediv__",
    "__rtruediv__"]

def bitwise : List String :=
  ["__and__", "__rand__", "__xor__", "__rxor__", "__or__", "__ror__"]

def rounding : List String := ["__trunc__", "__floor__", "__ceil__", "__round__"]

def kind? (p : Provisions) (name : String) : Option ProvisionKind :=
  if p.slots.contains name then some .slot
  else if p.methods.contains name then some .method
  else if p.functions.contains name then some .function
  else if p.classMethods.contains name then some .classMethod
  else if p.staticMethods.contains name then some .staticMethod
  else if p.fields.contains name then some .field
  else if p.memberFields.contains name then some .memberField
  else none

end Provisions

namespace BasicType

open Provisions in
def provisions : BasicType → Provisions
  | object => {
      slots := ["__repr__", "__hash__", "__str__", "__getattribute__", "__setattr__", "__delattr__",
        "__init__"] ++ comparisons
      methods := ["__reduce_ex__", "__reduce__", "__getstate__", "__format__", "__sizeof__",
        "__dir__"]
      classMethods := ["__subclasshook__", "__init_subclass__"]
      staticMethods := ["__new__"]
      fields := ["__class__", "__doc__"] }
  | type => {
      slots := ["__repr__", "__call__", "__getattribute__", "__setattr__", "__delattr__", "__init__",
        "__or__", "__ror__"]
      methods := ["mro", "__subclasses__", "__instancecheck__", "__subclasscheck__", "__dir__",
        "__sizeof__"]
      classMethods := ["__prepare__"]
      staticMethods := ["__new__"]
      fields := ["__name__", "__qualname__", "__bases__", "__module__", "__dict__", "__doc__",
        "__text_signature__", "__annotations__", "__abstractmethods__"]
      memberFields := ["__basicsize__", "__itemsize__", "__flags__", "__weakrefoffset__", "__base__",
        "__dictoffset__", "__mro__"] }
  | enumType => {
      functions := ["__bool__", "__call__", "__contains__", "__delattr__", "__dir__", "__getattr__",
        "__getitem__", "__iter__", "__len__", "__repr__", "__reversed__", "__setattr__"]
      fields := ["__members__"] }
  | enumeration => {
      functions := ["__init__", "__repr__", "__str__", "__dir__", "__format__", "__hash__",
        "__reduce_ex__", "__deepcopy__", "__copy__"]
      staticMethods := ["__new__"]
      fields := ["name", "value"] }
  | null => { slots := ["__repr__", "__bool__"], staticMethods := ["__new__"] }
  | boolean => { slots := "__repr__" :: bitwise, staticMethods := ["__new__"] }
  | integer => {
      slots := ["__repr__", "__hash__", "__getattribute__", "__invert__", "__lshift__",
        "__rlshift__", "__rshift__", "__rrshift__", "__index__"] ++ comparisons ++ arithmetic
        ++ bitwise
      methods := ["conjugate", "bit_length", "bit_count", "to_bytes", "as_integer_ratio",
        "__getnewargs__", "__format__", "__sizeof__"] ++ rounding
      classMethods := ["from_bytes"]
      staticMethods := ["__new__"]
      fields := ["real", "imag", "numerator", "denominator"] }
  | number => {
      slots := ["__repr__", "__hash__", "__getattribute__"] ++ comparisons ++ arithmetic
      methods := ["conjugate", "as_integer_ratio", "hex", "is_integer", "__getnewargs__",
        "__format__"] ++ rounding
      classMethods := ["fromhex", "__getformat__"]
      staticMethods := ["__new__"]
      fields := ["real", "imag"] }
  | text => {
      slots := ["__repr__", "__hash__", "__str__", "__getattribute__", "__iter__", "__mod__",
        "__rmod__", "__len__", "__getitem__", "__add__", "__mul__", "__rmul__", "__contains__"]
        ++ comparisons
      methods := ["encode", "replace", "split", "rsplit", "join", "capitalize", "casefold", "title",
        "center", "count", "expandtabs", "find", "partition", "index", "ljust", "lower", "lstrip",
        "rfind", "rindex", "rjust", "rstrip", "rpartition", "splitlines", "strip", "swapcase",
        "translate", "upper", "startswith", "endswith", "removeprefix", "removesuffix", "isascii",
        "islower", "isupper", "istitle", "isspace", "isdecimal", "isdigit", "isnumeric", "isalpha",
        "isalnum", "isidentifier", "isprintable", "zfill", "format", "format_map", "__format__",
        "__sizeof__", "__getnewargs__"]
      staticMethods := ["__new__", "maketrans"] }
  | bytes => {
      slots := ["__repr__", "__hash__", "__len__", "__iter__"] ++ comparisons
      methods := ["decode", "hex"]
      staticMethods := ["__new__"] }
  | list => {
      slots := ["__repr__", "__getattribute__", "__iter__", "__init__", "__len__", "__setitem__",
        "__delitem__", "__add__", "__mul__", "__rmul__", "__contains__", "__iadd__", "__imul__"]
        ++ comparisons
      methods := ["__getitem__", "__reversed__", "__sizeof__", "clear", "copy", "append", "insert",
        "extend", "pop", "remove", "index", "count", "reverse", "sort"]
      classMethods := ["__class_getitem__"]
      staticMethods := ["__new__"] }
  | tuple => {
      slots := ["__repr__", "__hash__", "__getattribute__", "__iter__", "__len__", "__getitem__",
        "__add__", "__mul__", "__rmul__", "__contains__"] ++ comparisons
      methods := ["__getnewargs__", "index", "count"]
      classMethods := ["__class_getitem__"]
      staticMethods := ["__new__"] }
  | dict => {
      slots := ["__repr__", "__getattribute__", "__iter__", "__init__", "__or__", "__ror__",
        "__ior__", "__len__", "__setitem__", "__delitem__"] ++ comparisons
      methods := ["__getitem__", "__contains__", "__sizeof__", "get", "setdefault", "pop", "popitem",
        "keys", "items", "values", "update", "clear", "copy", "__reversed__"]
      classMethods := ["fromkeys", "__class_getitem__"]
      staticMethods := ["__new__"] }
  | view .values => {
      slots := ["__repr__", "__len__", "__iter__"]
      methods := ["__reversed__"]
      fields := ["mapping"] }
  | view _ => {
      slots := ["__repr__", "__len__", "__iter__", "__contains__"] ++ comparisons
      methods := ["__reversed__", "isdisjoint"]
      fields := ["mapping"] }
  | mapping => {
      slots := ["__repr__", "__len__", "__iter__", "__getitem__", "__contains__"] ++ comparisons
      methods := ["get", "keys", "values", "items", "copy"] }
  | iterator _ => { slots := ["__iter__", "__next__"], methods := ["__length_hint__"] }
  | function => {
      slots := ["__repr__", "__call__", "__get__"]
      fields := ["__code__", "__defaults__", "__kwdefaults__", "__annotations__", "__dict__",
        "__name__", "__qualname__"]
      memberFields := ["__closure__", "__doc__", "__globals__", "__module__", "__builtins__"] }
  | method => {
      slots := ["__repr__", "__hash__", "__call__", "__getattribute__", "__setattr__",
        "__delattr__"] ++ comparisons
      methods := ["__reduce__"]
      fields := ["__doc__"]
      memberFields := ["__func__", "__self__"] }
  | builtin | boundSlot | slot | methodDescriptor => {
      slots := ["__repr__", "__hash__", "__call__", "__getattribute__"] ++ comparisons
      methods := ["__reduce__"]
      fields := ["__doc__", "__name__", "__qualname__", "__self__", "__text_signature__"] }
  | staticFunction | classFunction => { slots := ["__call__", "__get__"] }
  | observableValue => { functions := ["__init__", "get", "add_listener", "remove_listener",
      "_changed"] }
  | property => { functions := ["__init__", "get", "set", "_store", "bind", "unbind", "is_bound",
      "_source_changed", "__repr__"] }
  | constant => { functions := ["__init__", "get"] }
  | computed => { functions := ["__init__", "compute", "get", "_invalidate"] }
  | selection => { functions := ["__init__", "compute", "_watch"] }
  | invocation | valueAt | combination => { functions := ["__init__", "compute"] }
  | propertyDeclaration => { functions := ["__init__", "__set_name__", "property", "__get__",
      "__set__"] }
  | listDeclaration | eventDeclaration => { functions := ["__init__", "__set_name__", "__get__",
      "__set__"] }
  | event | listChange => { functions := ["__init__", "__repr__"] }
  | observableList => { functions := ["__init__", "add_listener", "remove_listener", "_fire",
      "append", "extend", "insert", "remove", "pop", "clear", "__setitem__", "__delitem__",
      "__iadd__"] }
  | bundle => { functions := ["__missing__"], classMethods := ["from_text", "load"] }
  | builder => { functions := ["__init__", "build", "select_controller", "merge"] }
  | loader => { functions := ["__init__", "register", "locations", "builder_for", "load"] }
  | parameterized => { slots := ["__call__", "__getattribute__", "__repr__"] ++ comparisons }
  | _ => {}

end BasicType

end Fxml.Live
