import Mathlib.Data.List.DropRight
import Zabbix.Json.Jsonpath

/-!
# JSONPath queries

`jsonpath.c` searches a document for the values that a compiled path selects and applies the
functions at the end of the path to them. A pointer to a value is its place in the document, and
`path_depth` is the rest of the path from a segment on. Filter expressions are a parameter, and so
are the functions that compute with numbers.
-/

namespace Zabbix.JsonPath

open Zabbix.Expr Zabbix.Json

/-- `zbx_jsonobj_t`; `δ` are the numbers. The members of an object stand in the order of the
iterator of its hash set. -/
inductive Jsonobj (δ : Type)
  | string (value : List Char)
  | number (value : δ)
  | bool (value : Bool)
  | null
  | array (values : List (Jsonobj δ))
  | object (members : List (List Char × Jsonobj δ))

section

variable {δ : Type}

mutual

def Jsonobj.height : Jsonobj δ → ℕ
  | .array values => heightValues values + 1
  | .object members => heightMembers members + 1
  | _ => 1

def heightValues : List (Jsonobj δ) → ℕ
  | [] => 0
  | value :: values => max value.height (heightValues values)

def heightMembers : List (List Char × Jsonobj δ) → ℕ
  | [] => 0
  | (_, value) :: members => max value.height (heightMembers members)

end

structure Node (δ : Type) where
  location : List ℕ
  value : Jsonobj δ

def Jsonobj.root (obj : Jsonobj δ) : Node δ := ⟨[], obj⟩

def Node.below {α : Type} (node : Node δ) (value : α → Jsonobj δ) (elements : List α) :
    List (α × Node δ) :=
  elements.zipIdx.map fun (element, i) => (element, ⟨i :: node.location, value element⟩)

def Node.members (node : Node δ) : List (List Char × Node δ) :=
  match node.value with
  | .object members => (node.below Prod.snd members).map fun (member, el) => (member.1, el)
  | _ => []

def Node.values (node : Node δ) : List (Node δ) :=
  match node.value with
  | .array values => (node.below id values).map Prod.snd
  | _ => []

/-- What `zbx_snprintf` makes of the index of an element. -/
def indexName (i : ℕ) : List Char := Nat.toDigits 10 i

def Node.items (node : Node δ) : List (List Char × Node δ) :=
  node.values.zipIdx.map fun (el, i) => (indexName i, el)

/-- What a `zbx_jsonobj_ref_t` refers to: a value of the document or an internal string. -/
inductive Target (δ : Type)
  | pointer (node : Node δ)
  | internal (value : List Char)

structure Ref (δ : Type) where
  name : List Char
  value : Target δ

structure Context (δ : Type) where
  found : Bool
  objects : List (Ref δ)

abbrev Search (δ : Type) := Context δ → Node δ → List Segment → Bool × Context δ

def Context.addObject (ctx : Context δ) (name : List Char) (obj : Node δ) : Context δ :=
  { ctx with objects := ctx.objects ++ [⟨name, .pointer obj⟩] }

variable (firstMatch : Bool)
variable (matchExpression : Context δ → List Char → Node δ → List Segment → Bool × Context δ)
-- `jsonpath_query_contents`
variable (contents : Search δ)

def jsonpathQueryNextSegment (ctx : Context δ) (name : List Char) (obj : Node δ)
    (path : List Segment) : Bool × Context δ :=
  match path.tail with
  | [] => (true, { ctx with found := ctx.found || firstMatch }.addObject name obj)
  | segment :: rest =>
    if segment.data.isFunction then
      (true, { ctx with found := ctx.found || firstMatch }.addObject name obj)
    else contents ctx obj (segment :: rest)

def matchLoop (path : List Segment) :
    Context δ → List (List Char × Node δ) → Bool × Context δ
  | ctx, [] => (true, ctx)
  | ctx, (name, el) :: els =>
    match jsonpathQueryNextSegment firstMatch contents ctx name el path with
    | (true, ctx) => matchLoop path ctx els
    | (false, ctx) => (false, ctx)

def hashsetSearch (members : List (List Char × Node δ)) (name : List Char) :
    Option (List Char × Node δ) :=
  members.find? fun member => member.1 = name

def jsonpathMatchName (ctx : Context δ) (parent : Node δ) (data : SegmentData)
    (path : List Segment) : Bool × Context δ :=
  match data with
  | .matchNames values =>
    matchLoop firstMatch contents path ctx (values.filterMap (hashsetSearch parent.members))
  | _ => (true, ctx)

/-- The element that an index of a list refers to, in `jsonpath_match_index`. -/
def indexElement (values : List (Node δ)) (queryIndex : ℤ) : Option (List Char × Node δ) :=
  let queryIndex := if queryIndex < 0 then queryIndex + values.length else queryIndex
  if 0 ≤ queryIndex ∧ queryIndex < values.length then
    values[queryIndex.toNat]?.map fun el => (indexName queryIndex.toNat, el)
  else none

def jsonpathMatchIndex (ctx : Context δ) (parent : Node δ) (data : SegmentData)
    (path : List Segment) : Bool × Context δ :=
  match data with
  | .matchIndexes values =>
    matchLoop firstMatch contents path ctx (values.filterMap (indexElement parent.values))
  | _ => (true, ctx)

def rangeIndexes (start stop : Option ℤ) (valuesNum : ℕ) : List ℕ :=
  let startIndex := start.getD 0
  let endIndex : ℤ :=
    match stop with
    | some stop => min stop (valuesNum : ℤ)
    | none => valuesNum
  let startIndex := if startIndex < 0 then max (startIndex + valuesNum) 0 else startIndex
  let endIndex := if endIndex < 0 then endIndex + valuesNum else endIndex
  if endIndex < 0 then []
  else List.range' startIndex.toNat (endIndex - startIndex).toNat

def jsonpathMatchRange (ctx : Context δ) (parent : Node δ) (start stop : Option ℤ)
    (path : List Segment) : Bool × Context δ :=
  matchLoop firstMatch contents path ctx
    ((rangeIndexes start stop parent.values.length).filterMap fun i =>
      parent.values[i]?.map fun el => (indexName i, el))

def queryElement (segment : Segment) (path : List Segment) (ctx : Context δ) (name : List Char)
    (el : Node δ) : Bool × Context δ :=
  let (ret, ctx) :=
    match segment.data with
    | .matchAll => jsonpathQueryNextSegment firstMatch contents ctx name el path
    | .matchExpression _ => matchExpression ctx name el path
    | _ => (true, ctx)
  if segment.detached then contents ctx el path else (ret, ctx)

/-- The loops of `jsonpath_query_object` and `jsonpath_query_array`. -/
def elementsLoop (segment : Segment) (path : List Segment) :
    Context δ → List (List Char × Node δ) → Bool × Context δ
  | ctx, [] => (true, ctx)
  | ctx, (name, el) :: els =>
    if ctx.found then (true, ctx)
    else
      match queryElement firstMatch matchExpression contents segment path ctx name el with
      | (true, ctx) => elementsLoop segment path ctx els
      | (false, ctx) => (false, ctx)

def jsonpathQueryObject (ctx : Context δ) (obj : Node δ) (path : List Segment) : Bool × Context δ :=
  match path with
  | [] => (true, ctx)
  | segment :: _ =>
    let loop := fun ctx => elementsLoop firstMatch matchExpression contents segment path ctx obj.members
    match segment.data with
    | .matchNames _ | .matchIndexes _ =>
      match jsonpathMatchName firstMatch contents ctx obj segment.data path with
      | (true, ctx) => if segment.detached then loop ctx else (true, ctx)
      | (false, ctx) => (false, ctx)
    | _ => loop ctx

def jsonpathQueryArray (ctx : Context δ) (array : Node δ) (path : List Segment) :
    Bool × Context δ :=
  match path with
  | [] => (true, ctx)
  | segment :: _ =>
    let loop := fun ctx => elementsLoop firstMatch matchExpression contents segment path ctx array.items
    match segment.data with
    | .matchNames _ | .matchIndexes _ =>
      match jsonpathMatchIndex firstMatch contents ctx array segment.data path with
      | (true, ctx) => if segment.detached then loop ctx else (true, ctx)
      | (false, ctx) => (false, ctx)
    | .matchRange start stop =>
      match jsonpathMatchRange firstMatch contents ctx array start stop path with
      | (true, ctx) => if segment.detached then loop ctx else (true, ctx)
      | (false, ctx) => (false, ctx)
    | _ => loop ctx

/-- `jsonpath_query_contents`. Every call comes one level deeper, so that the height of the
document is enough calls. -/
def jsonpathQueryContents : ℕ → Search δ
  | 0, ctx, _, _ => (true, ctx)
  | fuel + 1, ctx, obj, path =>
    match obj.value with
    | .object _ =>
      jsonpathQueryObject firstMatch matchExpression (jsonpathQueryContents fuel) ctx obj path
    | .array _ =>
      jsonpathQueryArray firstMatch matchExpression (jsonpathQueryContents fuel) ctx obj path
    | _ => (true, ctx)

end

section

variable {δ : Type}
-- the functions `min`, `max`, `avg` and `sum`
variable (aggregate : FunctionType → List (Ref δ) → Option (List Char))

def Ref.ofString (value : List Char) : Ref δ := ⟨[], .internal value⟩

def definiteElements : List (Ref δ) → Option (List (Ref δ))
  | ⟨_, .pointer node⟩ :: _ =>
    match node.value with
    | .array _ => some (node.items.map fun (name, el) => ⟨name, .pointer el⟩)
    | _ => none
  | _ => none

def jsonpathApplyFunction (objects : List (Ref δ)) (type : FunctionType) (definitePath : Bool) :
    Option (List (Ref δ) × Bool) :=
  if type = .name then
    if objects.isEmpty then none
    else some (objects.map fun ref => Ref.ofString ref.name, definitePath)
  else
    (if definitePath then definiteElements objects else some objects).bind fun objects =>
      match type with
      | .length => some ([Ref.ofString (indexName objects.length)], true)
      | .first => some (objects.head?.toList, true)
      | _ => (aggregate type objects).map fun value => ([Ref.ofString value], true)

def jsonpathApplyFunctions (objects : List (Ref δ)) (definitePath : Bool) :
    List FunctionType → Option (List (Ref δ) × Bool)
  | [] => some (objects, definitePath)
  | type :: types =>
    (jsonpathApplyFunction aggregate objects type definitePath).bind fun (out, definitePath) =>
      jsonpathApplyFunctions out definitePath types

/-- What `jsonpath_format_query_result` writes: nothing, one value, or an array of values. -/
inductive Output (δ : Type)
  | empty
  | value (value : Target δ)
  | values (values : List (Target δ))

def jsonpathFormatQueryResult (objects : List (Ref δ)) (definitePath : Bool) : Output δ :=
  match objects with
  | [] => .empty
  | ref :: _ => if definitePath then .value ref.value else .values (objects.map Ref.value)

variable (matchExpression : Bool → Context δ → List Char → Node δ → List Segment → Bool × Context δ)

def Jsonpath.selectors (path : Jsonpath) : List Segment :=
  path.segments.rdropWhile (·.data.isFunction)

def Jsonpath.functions (path : Jsonpath) : List FunctionType :=
  (path.segments.rtakeWhile (·.data.isFunction)).filterMap fun segment =>
    match segment.data with
    | .function type => some type
    | _ => none

def jsonpathSearch (obj : Jsonobj δ) (path : Jsonpath) : Bool × Context δ :=
  jsonpathQueryContents path.firstMatch (matchExpression path.firstMatch) obj.height ⟨false, []⟩
    obj.root path.segments

def zbxJsonobjQuery (obj : Jsonobj δ) (path : Jsonpath) : Option (Output δ) :=
  match jsonpathSearch matchExpression obj path with
  | (false, _) => none
  | (true, ctx) =>
    if path.functions ≠ [] then
      -- functions at the start of the path are applied to the document
      let objects := if path.selectors = [] then [⟨[], .pointer obj.root⟩] else ctx.objects
      (jsonpathApplyFunctions aggregate objects path.definite path.functions).map
        fun (out, definitePath) => jsonpathFormatQueryResult out definitePath
    else some (jsonpathFormatQueryResult ctx.objects path.definite)

end

end Zabbix.JsonPath
