import Fxml.Types.Coercion
import Fxml.Types.Controller

/-! What can be wrong with a document that is well formed. -/

namespace Fxml

/-- Why an included document has no plan: the kind of the report and its message. -/
structure IncludeFault where
  kind : Kind
  message : String
deriving DecidableEq

inductive Problem where
  | reservedId (id : String)
  | duplicateId (id : String) (first : Position)
  | duplicateExport (id path : String) (first : Position)
  | unknownId (id : String)
  | unknownExport (id : String)
  | ambiguousType (tag : String) (candidates : List String)
  | unknownType (tag : String)
  | ambiguousController (tag : String) (candidates : List String)
  | unknownController (tag : String)
  | noFactory (type method : String)
  | noConstant (type name : String)
  | notCopyable (type : String)
  | noIncludeLoader (source : String)
  | failedInclude (fault : IncludeFault)
  | boundArgument (name : String)
  | unknownAttribute (type name : String)
  | unknownProperty (type name : String)
  | noStaticProperty (type name : String)
  | boundCollection (kind : PropertyKind) (property : String)
  | notBindable (type property : String)
  | notObservable (type property : String)
  | mapFromText (property : String)
  | mapFromContent (property : String)
  | needsController (method : String)
  | badMethod (cause : Controller.Error)
  | badText (cause : Coercion.Error)
  | noDefaultProperty (type : String)
  | noTextProperty (type : String)
  | missingDefaultProperty (type property : String)
  | mapDefaultProperty (type property : String)
  | crowdedDefaultProperty (type property : String) (count : Nat)
  | nestedProperty (property : String)
  | attributedProperty (property : String)
  | crowdedProperty (property : String) (count : Nat)
  | crowdedStaticProperty (property : String)
  | notSettable (name reason : String)
  | unknownBuilder (type builder : String)
  | noBuilderProperty (builder name : String)
  | noConstructorFor (type : String) (names : List String)
  | noConstructor (type : String)
  | unknownResource (key : String)
  | misplacedBinding
  | misplacedMethod (method : String)
  | cycle (labels : List String)
  | fieldMismatch (controller field declared type : String)
  | subControllerMismatch (field type : String)
  | locationMismatch (path type : String)
  | expressionMismatch (type target : String)
  | notAssignable (type target : String)
deriving DecidableEq

namespace Problem

def kind : Problem → Kind
  | reservedId .. | duplicateId .. | duplicateExport .. => .duplicateId
  | unknownId .. | unknownExport .. | noConstant .. | needsController .. | unknownResource .. =>
    .unknownReference
  | ambiguousType .. | unknownType .. | ambiguousController .. | unknownController .. =>
    .unknownType
  | noFactory .. | notCopyable .. | unknownBuilder .. | noConstructorFor .. | noConstructor .. =>
    .noConstructor
  | noIncludeLoader .. => .includeFailed
  | failedInclude fault => fault.kind
  | unknownAttribute .. | noStaticProperty .. | attributedProperty .. | notSettable ..
  | noBuilderProperty .. => .unknownAttribute
  | unknownProperty .. => .unknownProperty
  | badMethod cause => cause.kind
  | noDefaultProperty .. | noTextProperty .. | missingDefaultProperty .. | mapDefaultProperty ..
  | crowdedDefaultProperty .. => .invalidDefaultProperty
  | cycle .. => .cyclicDependency
  | fieldMismatch .. | subControllerMismatch .. | locationMismatch .. | expressionMismatch ..
  | notAssignable .. => .typeMismatch
  | boundArgument .. | boundCollection .. | notBindable .. | notObservable .. | mapFromText ..
  | mapFromContent .. | badText .. | nestedProperty .. | crowdedProperty ..
  | crowdedStaticProperty .. | misplacedBinding | misplacedMethod .. => .invalidValue

/-- Types that do not fit are only warned about: the builder may still convert the value. -/
def severity : Problem → Severity
  | fieldMismatch .. | subControllerMismatch .. | locationMismatch .. | expressionMismatch ..
  | notAssignable .. => .warning
  | _ => .error

def quoted (text : String) : String := "'" ++ text ++ "'"

def declaredAt (p : Position) : String :=
  "(first declared at line " ++ toString p.line ++ ", col " ++ toString p.col ++ ")"

def message : Problem → String
  | reservedId id => "fx:id " ++ quoted id ++ " is reserved for the controller"
  | duplicateId id first => "duplicate fx:id " ++ quoted id ++ " " ++ declaredAt first
  | duplicateExport id path first =>
    "duplicate fx:id " ++ quoted id ++ " exported by " ++ path ++ " " ++ declaredAt first
  | unknownId id => "unknown id " ++ quoted id
  | unknownExport id => "exported id " ++ quoted id ++ " is not declared"
  | ambiguousType tag candidates =>
    "ambiguous type " ++ quoted tag ++ ": " ++ ", ".intercalate candidates
  | unknownType tag => "unknown type " ++ quoted tag
  | ambiguousController tag candidates =>
    "ambiguous controller type " ++ quoted tag ++ ": " ++ ", ".intercalate candidates
  | unknownController tag => "unknown controller type " ++ quoted tag
  | noFactory type method => type ++ " has no factory method " ++ quoted method
  | noConstant type name => type ++ " has no constant " ++ quoted name
  | notCopyable type => type ++ " cannot be copied"
  | noIncludeLoader source =>
    "cannot include " ++ quoted source ++ ": no include loader configured"
  | failedInclude fault => fault.message
  | boundArgument name => "constructor argument " ++ quoted name ++ " cannot be bound"
  | unknownAttribute type name | unknownProperty type name =>
    type ++ " has no property " ++ quoted name
  | noStaticProperty type name => type ++ " has no static property " ++ quoted name
  | boundCollection kind property =>
    kind.name ++ " property " ++ quoted property ++ " cannot be bound"
  | notBindable type property =>
    "property " ++ quoted property ++ " of " ++ type ++ " is not observable and cannot be bound"
  | notObservable type property =>
    "property " ++ quoted property ++ " of " ++ type ++ " is not observable"
  | mapFromText property =>
    "map property " ++ quoted property ++ " takes entries from a property element"
  | mapFromContent property => "map property " ++ quoted property ++ " takes attributes only"
  | needsController method => "handler '#" ++ method ++ "' needs a controller"
  | badMethod cause => cause.message
  | badText cause => cause.message
  | noDefaultProperty type => type ++ " has no default property"
  | noTextProperty type => type ++ " has no default property to take element text"
  | missingDefaultProperty type property =>
    "default property " ++ quoted property ++ " of " ++ type ++ " does not exist"
  | mapDefaultProperty type property =>
    "default property " ++ quoted property ++ " of " ++ type ++ " is a map"
  | crowdedDefaultProperty type property count =>
    "default property " ++ quoted property ++ " of " ++ type ++ " holds a single value but "
      ++ toString count ++ " were given"
  | nestedProperty property =>
    "property elements cannot be nested inside <" ++ property ++ ">"
  | attributedProperty property => "property element <" ++ property ++ "> takes no attributes"
  | crowdedProperty property count =>
    "property " ++ quoted property ++ " takes a single value but " ++ toString count
      ++ " were given"
  | crowdedStaticProperty property =>
    "static property " ++ quoted property ++ " takes a single value"
  | notSettable name reason => quoted name ++ " cannot be set: " ++ reason
  | unknownBuilder type builder => "builder type " ++ builder ++ " of " ++ type ++ " is unknown"
  | noBuilderProperty builder name => "builder " ++ builder ++ " has no property " ++ quoted name
  | noConstructorFor type names =>
    "no constructor of " ++ type ++ " accepts " ++ ", ".intercalate names
  | noConstructor type => type ++ " has no usable constructor"
  | unknownResource key => "unknown resource key " ++ quoted key
  | misplacedBinding => "binding expression is not permitted here"
  | misplacedMethod method =>
    "method reference '#" ++ method ++ "' is only allowed on handlers"
  | cycle labels => "dependency cycle: " ++ " -> ".intercalate (labels ++ labels.take 1)
  | fieldMismatch controller field declared type =>
    "controller field " ++ quoted field ++ " of " ++ controller ++ " is " ++ declared
      ++ " and cannot hold " ++ type
  | subControllerMismatch field type =>
    "controller field " ++ quoted field ++ " cannot hold " ++ type
  | locationMismatch path type => "location @" ++ path ++ " assigned to " ++ type
  | expressionMismatch type target =>
    "expression of type " ++ type ++ " assigned to " ++ target
  | notAssignable type target => type ++ " is not assignable to " ++ target

def related : Problem → List String
  | cycle labels => labels
  | _ => []

end Problem

def Diagnostics.report (ds : Diagnostics) (problem : Problem) (pos : Position) : Diagnostics :=
  ds.add problem.severity problem.kind problem.message pos problem.related

end Fxml
