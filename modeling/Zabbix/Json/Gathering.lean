import Zabbix.Json.QuerySemantics

/-!
# What a JSONPath search gathers

The objects that a search adds, in its order, as a list.
-/

namespace Zabbix.JsonPath

open List Zabbix.Expr Zabbix.Json

def Segment.Plain (segment : Segment) : Prop :=
  ∀ expression, segment.data ≠ .matchExpression expression

section

variable {δ : Type}

section

-- the objects below a value for a rest of the path
variable (contents : Node δ → List Segment → List (Ref δ))

/-- What `jsonpath_query_next_segment` adds. -/
def nextObjects (path : List Segment) (el : List Char × Node δ) : List (Ref δ) :=
  match path.tail with
  | [] => [⟨el.1, .pointer el.2⟩]
  | segment :: rest =>
    if segment.data.isFunction then [⟨el.1, .pointer el.2⟩] else contents el.2 (segment :: rest)

def listed (data : SegmentData) (node : Node δ) : List (List Char × Node δ) :=
  match data with
  | .matchNames values => values.filterMap (hashsetSearch node.members)
  | .matchIndexes values => values.filterMap (indexElement node.values)
  | .matchRange start stop =>
    (rangeIndexes start stop node.values.length).filterMap fun i =>
      node.values[i]?.map fun el => (indexName i, el)
  | _ => []

def elementObjects (segment : Segment) (path : List Segment) (el : List Char × Node δ) :
    List (Ref δ) :=
  (match segment.data with
    | .matchAll => nextObjects contents path el
    | _ => []) ++
    if segment.detached then contents el.2 path else []

def nodeObjects (node : Node δ) (path : List Segment) : List (Ref δ) :=
  match path with
  | [] => []
  | segment :: _ =>
    (listed segment.data node).flatMap (nextObjects contents path) ++
      (node.members ++ node.items).flatMap (elementObjects contents segment path)

end

def contentsObjects : ℕ → Node δ → List Segment → List (Ref δ)
  | 0, _, _ => []
  | k + 1, node, path => nodeObjects (contentsObjects k) node path

def Gathered (firstMatch : Bool) (ctx : Context δ) (objects : List (Ref δ))
    (result : Bool × Context δ) : Prop :=
  result.1 = true ∧ ∃ added, result.2.objects = ctx.objects ++ added ∧
    (firstMatch = false → ctx.found = false → added = objects ∧ result.2.found = false) ∧
    (firstMatch = true → result.2.found = (ctx.found || !added.isEmpty) ∧
      (ctx.found = false → added.head? = objects.head?))

variable {firstMatch : Bool} {ctx : Context δ} {objects objects' : List (Ref δ)}
  {result result' : Bool × Context δ}

theorem Gathered.nil : Gathered firstMatch ctx [] (true, ctx) := by
  refine ⟨rfl, [], (append_nil _).symm, fun _ hfound => ⟨rfl, hfound⟩, fun _ => ⟨?_, fun _ => rfl⟩⟩
  simp

theorem Gathered.stop (h : ctx.found = true) : Gathered firstMatch ctx objects (true, ctx) := by
  refine ⟨rfl, [], (append_nil _).symm, fun _ hfound => ?_, fun _ => ⟨?_, fun hfound => ?_⟩⟩
  · exact absurd (h.symm.trans hfound) (by decide)
  · simp
  · exact absurd (h.symm.trans hfound) (by decide)

theorem Gathered.add (name : List Char) (obj : Node δ) : Gathered firstMatch ctx [⟨name, .pointer obj⟩]
    (true, { ctx with found := ctx.found || firstMatch }.addObject name obj) := by
  refine ⟨rfl, [⟨name, .pointer obj⟩], rfl, fun hfirst hfound => ⟨rfl, ?_⟩, fun hfirst => ⟨?_, fun _ => rfl⟩⟩
  · rw [Context.addObject, hfirst, hfound]
    rfl
  · rw [Context.addObject, hfirst]
    rfl

theorem Gathered.append (h : Gathered firstMatch ctx objects result)
    (h' : Gathered firstMatch result.2 objects' result') :
    Gathered firstMatch ctx (objects ++ objects') result' := by
  obtain ⟨-, added, hadded, hall, hfirst⟩ := h
  obtain ⟨hret, added', hadded', hall', hfirst'⟩ := h'
  refine ⟨hret, added ++ added', ?_, ?_, ?_⟩
  · rw [hadded', hadded, append_assoc]
  · intro hmatch hfound
    obtain ⟨rfl, hmiddle⟩ := hall hmatch hfound
    obtain ⟨rfl, hend⟩ := hall' hmatch hmiddle
    exact ⟨rfl, hend⟩
  · intro hmatch
    obtain ⟨hmiddle, hhead⟩ := hfirst hmatch
    obtain ⟨hend, hhead'⟩ := hfirst' hmatch
    refine ⟨?_, ?_⟩
    · rw [hend, hmiddle]
      cases added <;> simp
    · intro hfound
      rw [List.head?_append, List.head?_append, hhead hfound]
      cases added with
      | nil =>
        have hopen : result.2.found = false := by
          rw [hmiddle, hfound]
          rfl
        rw [hhead' hopen]
      | cons ref added => rw [← hhead hfound]; rfl

def Gathers (firstMatch : Bool) (search : Search δ) (below : Node δ → List Segment → List (Ref δ)) :
    Prop :=
  ∀ ctx obj path, (∀ segment ∈ path, segment.Plain) →
    Gathered firstMatch ctx (below obj path) (search ctx obj path)

section

variable {contents : Search δ} {below : Node δ → List Segment → List (Ref δ)} {path : List Segment}

theorem queryNextSegment_gathered
    (hcontents : Gathers firstMatch contents below)
    (hpath : ∀ segment ∈ path, segment.Plain) (ctx : Context δ) (el : List Char × Node δ) :
    Gathered firstMatch ctx (nextObjects below path el)
      (jsonpathQueryNextSegment firstMatch contents ctx el.1 el.2 path) := by
  unfold nextObjects jsonpathQueryNextSegment
  cases htail : path.tail with
  | nil => exact Gathered.add el.1 el.2
  | cons segment rest =>
    dsimp only
    split_ifs
    · exact Gathered.add el.1 el.2
    · apply hcontents
      intro other hother
      exact hpath other (mem_of_mem_tail (htail ▸ hother))

theorem matchLoop_gathered
    (hcontents : Gathers firstMatch contents below)
    (hpath : ∀ segment ∈ path, segment.Plain) (ctx : Context δ) (els : List (List Char × Node δ)) :
    Gathered firstMatch ctx (els.flatMap (nextObjects below path))
      (matchLoop firstMatch contents path ctx els) := by
  induction els generalizing ctx with
  | nil => exact Gathered.nil
  | cons el els ih =>
    have hnext := queryNextSegment_gathered hcontents hpath ctx el
    rw [matchLoop, flatMap_cons]
    generalize jsonpathQueryNextSegment firstMatch contents ctx el.1 el.2 path = result at *
    obtain ⟨ret, ctx'⟩ := result
    obtain rfl : ret = true := hnext.1
    exact hnext.append (ih ctx')

variable (matchExpression : Context δ → List Char → Node δ → List Segment → Bool × Context δ)

theorem queryMatch_gathered (hcontents : Gathers firstMatch contents below)
    (hpath : ∀ segment ∈ path, segment.Plain) {segment : Segment} (hplain : segment.Plain)
    (ctx : Context δ) (el : List Char × Node δ) :
    Gathered firstMatch ctx
      (match segment.data with
        | .matchAll => nextObjects below path el
        | _ => [])
      (match segment.data with
        | .matchAll => jsonpathQueryNextSegment firstMatch contents ctx el.1 el.2 path
        | .matchExpression _ => matchExpression ctx el.1 el.2 path
        | _ => (true, ctx)) := by
  cases hdata : segment.data with
  | matchAll => exact queryNextSegment_gathered hcontents hpath ctx el
  | matchExpression expression => exact absurd hdata (hplain expression)
  | _ => exact Gathered.nil

theorem queryElement_gathered (hcontents : Gathers firstMatch contents below)
    (hpath : ∀ segment ∈ path, segment.Plain) {segment : Segment} (hplain : segment.Plain)
    (ctx : Context δ) (el : List Char × Node δ) :
    Gathered firstMatch ctx (elementObjects below segment path el)
      (queryElement firstMatch matchExpression contents segment path ctx el.1 el.2) := by
  have hmatch := queryMatch_gathered matchExpression hcontents hpath hplain ctx el
  unfold elementObjects queryElement
  split_ifs
  · exact hmatch.append (hcontents _ el.2 path hpath)
  · rw [append_nil]
    exact hmatch

theorem elementsLoop_gathered (hcontents : Gathers firstMatch contents below)
    (hpath : ∀ segment ∈ path, segment.Plain) {segment : Segment} (hplain : segment.Plain)
    (ctx : Context δ) (els : List (List Char × Node δ)) :
    Gathered firstMatch ctx (els.flatMap (elementObjects below segment path))
      (elementsLoop firstMatch matchExpression contents segment path ctx els) := by
  induction els generalizing ctx with
  | nil => exact Gathered.nil
  | cons el els ih =>
    have hround := queryElement_gathered matchExpression hcontents hpath hplain ctx el
    rw [elementsLoop, flatMap_cons]
    split_ifs with hfound
    · exact Gathered.stop hfound
    · generalize queryElement firstMatch matchExpression contents segment path ctx el.1 el.2 =
        result at *
      obtain ⟨ret, ctx'⟩ := result
      obtain rfl : ret = true := hround.1
      exact hround.append (ih ctx')

theorem elementObjects_nil {segment : Segment} (hall : segment.data ≠ .matchAll)
    (hdetached : segment.detached = false) (els : List (List Char × Node δ)) :
    els.flatMap (elementObjects below segment path) = [] := by
  apply flatMap_eq_nil_iff.mpr
  intro el _
  rw [elementObjects, hdetached]
  cases hdata : segment.data with
  | matchAll => exact absurd hdata hall
  | _ => rfl

theorem listThenLoop_gathered
    (matchExpression : Context δ → List Char → Node δ → List Segment → Bool × Context δ)
    (hcontents : Gathers firstMatch contents below) {segment : Segment}
    (hpath : ∀ segment ∈ path, segment.Plain) (hplain : segment.Plain)
    (hall : segment.data ≠ .matchAll) (els : List (List Char × Node δ)) :
    Gathered firstMatch ctx objects result → Gathered firstMatch ctx
      (objects ++ els.flatMap (elementObjects below segment path))
      (match result with
        | (true, ctx) =>
          if segment.detached then
            elementsLoop firstMatch matchExpression contents segment path ctx els
          else (true, ctx)
        | (false, ctx) => (false, ctx)) := by
  intro hlist
  obtain ⟨ret, ctx'⟩ := result
  obtain rfl : ret = true := hlist.1
  dsimp only
  split_ifs with hdetached
  · exact hlist.append (elementsLoop_gathered matchExpression hcontents hpath hplain ctx' els)
  · rw [elementObjects_nil hall (Bool.not_eq_true _ ▸ hdetached), append_nil]
    exact hlist

variable {node : Node δ}

theorem listed_names_nil (hmembers : node.members = []) (values : List (List Char)) :
    listed (.matchNames values) node = [] := by
  rw [listed, hmembers]
  exact filterMap_eq_nil_iff.mpr fun name _ => rfl

theorem listed_indexes_nil (hvalues : node.values = []) (values : List ℤ) :
    listed (.matchIndexes values) node = [] := by
  rw [listed, hvalues]
  apply filterMap_eq_nil_iff.mpr
  intro index _
  have hnone (queryIndex : ℤ) : ¬ (0 ≤ queryIndex ∧ queryIndex < ([] : List (Node δ)).length) := by
    rw [length_nil]
    omega
  exact if_neg (hnone _)

theorem listed_range_nil (hvalues : node.values = []) (start stop : Option ℤ) :
    listed (.matchRange start stop) node = [] := by
  rw [listed, hvalues]
  exact filterMap_eq_nil_iff.mpr fun i _ => rfl

theorem nodeObjects_nil (hmembers : node.members = []) (hvalues : node.values = []) :
    nodeObjects below node path = [] := by
  have hitems : node.items = [] := by
    rw [Node.items, hvalues]
    rfl
  cases path with
  | nil => rfl
  | cons segment rest =>
    have hlisted : listed segment.data node = [] := by
      cases segment.data with
      | matchNames values => exact listed_names_nil hmembers values
      | matchIndexes values => exact listed_indexes_nil hvalues values
      | matchRange start stop => exact listed_range_nil hvalues start stop
      | _ => rfl
    rw [nodeObjects, hlisted, hmembers, hitems]
    rfl

theorem queryObject_gathered (hcontents : Gathers firstMatch contents below)
    (hpath : ∀ segment ∈ path, segment.Plain) (ctx : Context δ) {obj : Node δ}
    (hvalues : obj.values = []) :
    Gathered firstMatch ctx (nodeObjects below obj path)
      (jsonpathQueryObject firstMatch matchExpression contents ctx obj path) := by
  have hitems : obj.items = [] := by
    rw [Node.items, hvalues]
    rfl
  cases path with
  | nil => exact Gathered.nil
  | cons segment rest =>
    have hplain := hpath segment mem_cons_self
    have hloop := elementsLoop_gathered matchExpression hcontents hpath hplain ctx obj.members
    unfold nodeObjects jsonpathQueryObject
    rw [hitems, append_nil]
    dsimp only
    cases hdata : segment.data with
    | matchAll => exact hloop
    | matchNames values =>
      have hlist := matchLoop_gathered hcontents hpath ctx
        (values.filterMap (hashsetSearch obj.members))
      exact listThenLoop_gathered matchExpression hcontents hpath hplain (by rw [hdata]; exact nofun)
        obj.members hlist
    | matchIndexes values =>
      rw [listed_indexes_nil hvalues, flatMap_nil]
      exact listThenLoop_gathered matchExpression hcontents hpath hplain (by rw [hdata]; exact nofun)
        obj.members Gathered.nil
    | matchRange start stop =>
      rw [listed_range_nil hvalues]
      exact hloop
    | matchExpression expression => exact absurd hdata (hplain expression)
    | function type => exact hloop

theorem queryArray_gathered (hcontents : Gathers firstMatch contents below)
    (hpath : ∀ segment ∈ path, segment.Plain) (ctx : Context δ) {array : Node δ}
    (hmembers : array.members = []) :
    Gathered firstMatch ctx (nodeObjects below array path)
      (jsonpathQueryArray firstMatch matchExpression contents ctx array path) := by
  cases path with
  | nil => exact Gathered.nil
  | cons segment rest =>
    have hplain := hpath segment mem_cons_self
    have hloop := elementsLoop_gathered matchExpression hcontents hpath hplain ctx array.items
    unfold nodeObjects jsonpathQueryArray
    rw [hmembers, nil_append]
    dsimp only
    cases hdata : segment.data with
    | matchAll => exact hloop
    | matchNames values =>
      rw [listed_names_nil hmembers, flatMap_nil]
      exact listThenLoop_gathered matchExpression hcontents hpath hplain (by rw [hdata]; exact nofun)
        array.items Gathered.nil
    | matchIndexes values =>
      have hlist := matchLoop_gathered hcontents hpath ctx
        (values.filterMap (indexElement array.values))
      exact listThenLoop_gathered matchExpression hcontents hpath hplain (by rw [hdata]; exact nofun)
        array.items hlist
    | matchRange start stop =>
      have hlist := matchLoop_gathered hcontents hpath ctx (listed (.matchRange start stop) array)
      exact listThenLoop_gathered matchExpression hcontents hpath hplain (by rw [hdata]; exact nofun)
        array.items hlist
    | matchExpression expression => exact absurd hdata (hplain expression)
    | function type => exact hloop

/-- Every search gathers its objects, by induction on the number of calls. -/
theorem queryContents_gathers (firstMatch : Bool) (fuel : ℕ) : Gathers firstMatch
      (jsonpathQueryContents firstMatch matchExpression fuel) (contentsObjects fuel) := by
  induction fuel with
  | zero =>
    intro ctx obj path _
    exact Gathered.nil
  | succ fuel ih =>
    intro ctx obj path hpath
    rw [contentsObjects, jsonpathQueryContents]
    obtain ⟨location, value⟩ := obj
    cases value with
    | object members => exact queryObject_gathered matchExpression ih hpath ctx rfl
    | array values => exact queryArray_gathered matchExpression ih hpath ctx rfl
    | _ =>
      rw [nodeObjects_nil rfl rfl]
      exact Gathered.nil

end

end

end Zabbix.JsonPath
