import Mathlib.Data.List.Perm.Basic
import Zabbix.Json.Compiled
import Zabbix.Json.Gathering

/-!
# JSONPath queries are correct

The objects that a search adds are the selection of the path.
-/

namespace Zabbix.JsonPath

open List Option Zabbix.Expr Zabbix.Json

variable {path : Jsonpath}

section

variable {δ : Type}

theorem items_snd (node : Node δ) : node.items.map Prod.snd = node.values := by
  rw [Node.items, List.map_map]
  exact zipIdx_map_fst 0 node.values

theorem elements_snd (node : Node δ) :
    (node.members ++ node.items).map Prod.snd = node.children := by
  rw [map_append, items_snd, Node.children]

theorem filterMap_range (l : List (Node δ)) (start count : ℕ) :
    (range' start count).filterMap (fun i => l[i]?) = (l.drop start).take count := by
  induction count generalizing start with
  | zero => simp
  | succ count ih =>
    rw [range'_succ]
    by_cases hin : start < l.length
    · rw [filterMap_cons_some (List.getElem?_eq_getElem hin), ih, drop_eq_getElem_cons hin,
        take_succ_cons]
    · rw [filterMap_cons_none (List.getElem?_eq_none (Nat.le_of_not_lt hin)), ih,
        drop_of_length_le (Nat.le_of_not_lt hin), drop_of_length_le (by omega),
        take_nil, take_nil]

theorem indexElement_snd (node : Node δ) (index : ℤ) :
    (indexElement node.values index).map Prod.snd = node.element index := by
  unfold indexElement Node.element
  dsimp only
  rw [fromEnd]
  generalize (if index < 0 then index + (node.values.length : ℤ) else index) = i
  split_ifs with hin hneg hneg
  · omega
  · rw [Option.map_map]
    exact congrFun Option.map_id _
  · rfl
  · symm
    apply List.getElem?_eq_none
    omega

theorem range'_congr {start start' count count' : ℕ} (hcount : count = count')
    (hstart : start = start' ∨ count = 0) : range' start count = range' start' count' := by
  obtain rfl | rfl := hstart
  · rw [hcount]
  · rw [← hcount]
    rfl

theorem rangeIndexes_eq (start stop : Option ℤ) (n : ℕ) : rangeIndexes start stop n =
    range' (fromEnd n (start.getD 0)).toNat
      (min (fromEnd n (stop.getD n)).toNat n - (fromEnd n (start.getD 0)).toNat) := by
  unfold rangeIndexes fromEnd
  generalize start.getD 0 = low
  cases stop with
  | none =>
    simp only [getD_none]
    split_ifs <;> first
      | omega
      | exact range'_congr (by omega) (by omega)
  | some stop =>
    simp only [getD_some]
    split_ifs <;> first
      | omega
      | exact range'_congr (by omega) (by omega)
      | exact (range'_eq_nil_iff.mpr (by omega)).symm

theorem range_snd (node : Node δ) (start stop : Option ℤ) :
    (rangeIndexes start stop node.values.length).filterMap (fun i => node.values[i]?) =
      select (.matchRange start stop) node := by
  rw [rangeIndexes_eq, filterMap_range]
  unfold select
  dsimp only
  rw [drop_take, take_eq_take_iff, length_drop]
  omega

def picked (data : SegmentData) (node : Node δ) : List (List Char × Node δ) :=
  listed data node ++
    match data with
    | .matchAll => node.members ++ node.items
    | _ => []

theorem picked_snd (data : SegmentData) (node : Node δ) :
    (picked data node).map Prod.snd = select data node := by
  cases data with
  | matchAll => exact elements_snd node
  | matchNames values =>
    unfold picked
    rw [append_nil, listed, map_filterMap]
    rfl
  | matchIndexes values =>
    unfold picked
    rw [append_nil, listed, map_filterMap, select]
    exact filterMap_congr fun index _ => indexElement_snd node index
  | matchRange start stop =>
    unfold picked
    rw [append_nil, listed, map_filterMap, ← range_snd]
    apply filterMap_congr
    intro i _
    rw [Option.map_map]
    exact congrFun Option.map_id _
  | matchExpression expression => rfl
  | function type => rfl

variable {node : Node δ}

theorem mem_children_of_select (data : SegmentData) {el : Node δ} (h : el ∈ select data node) :
    el ∈ node.children := by
  cases data with
  | matchAll => exact h
  | matchNames values =>
    obtain ⟨name, -, hfind⟩ := mem_filterMap.mp h
    obtain ⟨member, hmember, rfl⟩ := map_eq_some_iff.mp hfind
    exact mem_append_left _ (List.mem_map_of_mem (mem_of_find?_eq_some hmember))
  | matchIndexes values =>
    obtain ⟨index, -, hel⟩ := mem_filterMap.mp h
    unfold Node.element at hel
    dsimp only at hel
    split_ifs at hel
    exact mem_append_right _ (mem_of_getElem? hel)
  | matchRange start stop => exact mem_append_right _ (mem_of_mem_take (mem_of_mem_drop h))
  | matchExpression expression | function type => exact absurd h not_mem_nil

variable {functions : List Segment} {contents : Node δ → List Segment → List (Ref δ)}

def Segment.Selector (segment : Segment) : Prop :=
  segment.Plain ∧ segment.data.isFunction = false

def Selects (contents : Node δ → List Segment → List (Ref δ)) (functions : List Segment)
    (node : Node δ) : Prop :=
  ∀ selectors, selectors ≠ [] → (∀ segment ∈ selectors, segment.Selector) →
    ((contents node (selectors ++ functions)).map Ref.value).Perm
      ((selection selectors [node]).map Target.pointer)

theorem nextObjects_perm (hfunctions : ∀ segment ∈ functions, segment.data.isFunction = true)
    {segment : Segment} {rest : List Segment} (hrest : ∀ segment ∈ rest, segment.Selector)
    {el : List Char × Node δ} (hselects : Selects contents functions el.2) :
    ((nextObjects contents (segment :: rest ++ functions) el).map Ref.value).Perm
      ((selection rest [el.2]).map Target.pointer) := by
  unfold nextObjects
  cases rest with
  | nil =>
    cases functions with
    | nil => exact Perm.refl _
    | cons function functions =>
      have hfunction := hfunctions function mem_cons_self
      simp only [singleton_append, tail_cons]
      rw [if_pos hfunction]
      exact Perm.refl _
  | cons next rest =>
    have hnext := (hrest next mem_cons_self).2
    simp only [cons_append, tail_cons]
    rw [if_neg (by rw [hnext]; decide)]
    exact hselects (next :: rest) (cons_ne_nil _ _) hrest

theorem elementObjects_perm (contents : Node δ → List Segment → List (Ref δ)) (segment : Segment) (path : List Segment) (node : Node δ) :
    (nodeObjects contents node (segment :: path)).Perm
      ((picked segment.data node).flatMap (nextObjects contents (segment :: path)) ++
        if segment.detached then
          (node.members ++ node.items).flatMap fun el => contents el.2 (segment :: path)
        else []) := by
  unfold nodeObjects elementObjects picked
  dsimp only
  generalize node.members ++ node.items = els
  rw [flatMap_append, append_assoc]
  apply Perm.append_left
  refine (flatMap_append_perm _ _ _).symm.trans (Perm.append ?_ ?_)
  · cases segment.data with
    | matchAll => exact Perm.refl _
    | _ => simp
  · split_ifs
    · exact Perm.refl _
    · simp

theorem nodeObjects_perm (hfunctions : ∀ segment ∈ functions, segment.data.isFunction = true)
    (hchildren : ∀ child ∈ node.children, Selects contents functions child) :
    Selects (nodeObjects contents) functions node := by
  intro selectors hne hselectors
  cases selectors with
  | nil => contradiction
  | cons segment rest =>
    have hrest : ∀ segment ∈ rest, segment.Selector := fun other hother =>
      hselectors other (mem_cons_of_mem segment hother)
    -- what the segment picks, and the rest of the path from there
    have hpicked : (((picked segment.data node).flatMap
        (nextObjects contents (segment :: rest ++ functions))).map Ref.value).Perm
        (((select segment.data node).flatMap fun el => selection rest [el]).map Target.pointer) := by
      rw [← picked_snd, flatMap_map, map_flatMap, map_flatMap]
      apply Perm.flatMap_left
      intro el hel
      apply nextObjects_perm hfunctions hrest
      apply hchildren
      apply mem_children_of_select segment.data
      rw [← picked_snd]
      exact List.mem_map_of_mem hel
    have hobjects := (elementObjects_perm contents segment (rest ++ functions) node).map
      Ref.value
    rw [map_append] at hobjects
    refine hobjects.trans ?_
    cases hdetached : segment.detached with
    | false =>
      rw [selection_attached hdetached]
      simpa using hpicked
    | true =>
      rw [selection_detached hdetached, map_append]
      apply hpicked.append
      rw [if_pos rfl, ← elements_snd, flatMap_map, map_flatMap, map_flatMap]
      apply Perm.flatMap_left
      intro el hel
      apply hchildren el.2 _ (segment :: rest) hne hselectors
      rw [← elements_snd]
      exact List.mem_map_of_mem hel

theorem contentsObjects_perm (hfunctions : ∀ segment ∈ functions, segment.data.isFunction = true)
    {k : ℕ} (h : node.value.height ≤ k) :
    Selects (contentsObjects k) functions node := by
  induction k generalizing node with
  | zero =>
    have := height_pos node.value
    omega
  | succ k ih =>
    apply nodeObjects_perm hfunctions
    intro child hchild
    have hless := height_children hchild
    exact ih (by omega)

/-- What a path selects if the search is not stopped. Functions at the start of a path are applied
to the document. -/
def fullResult
    (matchExpression : Bool → Context δ → List Char → Node δ → List Segment → Bool × Context δ)
    (obj : Jsonobj δ) (path : Jsonpath) : List (Ref δ) :=
  if path.selectors = [] then [⟨[], .pointer obj.root⟩]
  else (jsonpathSearch matchExpression obj { path with firstMatch := false }).2.objects

variable (matchExpression : Bool → Context δ → List Char → Node δ → List Segment → Bool × Context δ)

theorem jsonpathSearch_objects (obj : Jsonobj δ) (hplain : ∀ segment ∈ path.segments, segment.Plain)
    :
    (jsonpathSearch matchExpression obj path).1 = true ∧
      (path.firstMatch = false → (jsonpathSearch matchExpression obj path).2.objects =
        contentsObjects obj.height obj.root path.segments) ∧
      (jsonpathSearch matchExpression obj path).2.objects.head? =
        (contentsObjects obj.height obj.root path.segments).head? := by
  obtain ⟨hret, added, hobjects, hall, hfirst⟩ := queryContents_gathers
    (matchExpression path.firstMatch) path.firstMatch obj.height ⟨false, []⟩ obj.root path.segments
    hplain
  rw [nil_append] at hobjects
  refine ⟨hret, fun hmatch => hobjects.trans (hall hmatch rfl).1, ?_⟩
  unfold jsonpathSearch
  rw [hobjects]
  cases hmatch : path.firstMatch with
  | false => rw [(hall hmatch rfl).1]
  | true => exact (hfirst hmatch).2 rfl

theorem fullResult_eq (obj : Jsonobj δ) (hplain : ∀ segment ∈ path.segments, segment.Plain)
    (hne : path.selectors ≠ []) :
    fullResult matchExpression obj path = contentsObjects obj.height obj.root path.segments := by
  have hwhole : ∀ segment ∈ ({ path with firstMatch := false } : Jsonpath).segments, segment.Plain :=
    hplain
  rw [fullResult, if_neg hne]
  exact (jsonpathSearch_objects matchExpression obj hwhole).2.1 rfl

theorem fullResult_perm (obj : Jsonobj δ) (hplain : ∀ segment ∈ path.segments, segment.Plain)
    (hselectors : ∀ segment ∈ path.selectors, segment.data.isFunction = false) :
    ((fullResult matchExpression obj path).map Ref.value).Perm
      ((selection path.selectors [obj.root]).map Target.pointer) := by
  have hsplit : path.selectors ++ path.segments.rtakeWhile (·.data.isFunction) = path.segments :=
    rdropWhile_append_rtakeWhile
  by_cases hne : path.selectors = []
  · rw [fullResult, if_pos hne, hne]
    exact Perm.refl _
  · rw [fullResult_eq matchExpression obj hplain hne, ← hsplit]
    apply contentsObjects_perm _ (Nat.le_refl obj.height) _ hne
    · intro segment hsegment
      refine ⟨hplain segment ?_, hselectors segment hsegment⟩
      rw [← hsplit]
      exact mem_append_left _ hsegment
    · intro segment hsegment
      exact mem_rtakeWhile_imp (p := fun segment : Segment => segment.data.isFunction) hsegment

variable {objects objects' : List (Ref δ)}

theorem definiteElements_head (h : objects.head? = objects'.head?) :
    definiteElements objects = definiteElements objects' := by
  cases objects with
  | nil =>
    obtain rfl := List.head?_eq_none_iff.mp h.symm
    rfl
  | cons ref objects =>
    obtain ⟨rest, rfl⟩ := List.head?_eq_some_iff.mp h.symm
    obtain ⟨name, value⟩ := ref
    cases value <;> rfl

theorem format_head (h : objects.head? = objects'.head?) :
    jsonpathFormatQueryResult objects true = jsonpathFormatQueryResult objects'.head?.toList true := by
  rw [← h]
  cases objects <;> rfl

theorem functions_nil (h : path.functions = []) : path.selectors = path.segments := by
  unfold Jsonpath.selectors
  have hnone : path.segments.rtakeWhile (·.data.isFunction) = [] := by
    rw [eq_nil_iff_forall_not_mem]
    intro segment hsegment
    have hfunction := mem_rtakeWhile_imp hsegment
    have hmissing := filterMap_eq_nil_iff.mp h segment hsegment
    cases hdata : segment.data with
    | function type =>
      rw [hdata] at hmissing
      contradiction
    | _ =>
      rw [hdata] at hfunction
      contradiction
  have hsplit : path.segments.rdropWhile (·.data.isFunction) ++
      path.segments.rtakeWhile (·.data.isFunction) = path.segments :=
    rdropWhile_append_rtakeWhile
  rwa [hnone, append_nil] at hsplit

/-- A compiled path without filters selects what it says, segment by segment. A query without
functions returns all of it, or the first value found if the path is definite, and first() behind
the path takes the first value as well. -/
theorem zbxJsonobjQuery_selection {strtod : List Char → ℕ × Bool} {text : List Char}
    {path : Jsonpath} (hcompile : zbxJsonpathCompile strtod text = .ok path)
    (hplain : ∀ segment ∈ path.segments, segment.Plain)
    (aggregate : FunctionType → List (Ref δ) → Option (List Char))
    (matchExpression : Bool → Context δ → List Char → Node δ → List Segment → Bool × Context δ)
    (obj : Jsonobj δ) :
    ((fullResult matchExpression obj path).map Ref.value).Perm
        ((selection path.selectors [obj.root]).map Target.pointer) ∧
      (path.functions = [] → zbxJsonobjQuery aggregate matchExpression obj path =
        some (jsonpathFormatQueryResult
          (if path.definite then (fullResult matchExpression obj path).head?.toList
          else fullResult matchExpression obj path) path.definite)) ∧
      ∀ types, path.functions = .first :: types →
        zbxJsonobjQuery aggregate matchExpression obj path =
          ((if path.definite then definiteElements (fullResult matchExpression obj path)
          else some (fullResult matchExpression obj path)).bind fun objects =>
            jsonpathApplyFunctions aggregate objects.head?.toList true types).map
              fun (out, definitePath) => jsonpathFormatQueryResult out definitePath := by
  obtain ⟨hselectors, hne, hfirst⟩ := compileWith_ordered hcompile
  obtain ⟨hret, hall, hhead⟩ := jsonpathSearch_objects matchExpression obj hplain
  refine ⟨fullResult_perm matchExpression obj hplain hselectors, ?_, ?_⟩
  · intro hnone
    have hsome : path.selectors ≠ [] := by
      rwa [functions_nil hnone]
    rw [fullResult_eq matchExpression obj hplain hsome, zbxJsonobjQuery]
    generalize jsonpathSearch matchExpression obj path = result at *
    obtain ⟨ret, ctx⟩ := result
    obtain rfl : ret = true := hret
    dsimp only at hall hhead ⊢
    rw [if_neg (not_not_intro hnone)]
    cases hdefinite : path.definite with
    | true => rw [if_pos rfl, format_head hhead]
    | false =>
      have hmatch : path.firstMatch = false := by
        by_contra hstops
        obtain hpath | hfunction := hfirst (Bool.not_eq_false _ ▸ hstops)
        · exact Bool.false_ne_true (hdefinite.symm.trans hpath)
        · rw [hnone] at hfunction
          exact absurd hfunction not_mem_nil
      rw [hall hmatch]
      rfl
  · intro types hfunctions
    have hinput : (if path.selectors = [] then [⟨[], .pointer obj.root⟩]
        else (jsonpathSearch matchExpression obj path).2.objects).head? =
        (fullResult matchExpression obj path).head? := by
      by_cases hstart : path.selectors = []
      · rw [if_pos hstart, fullResult, if_pos hstart]
      · rw [if_neg hstart, fullResult_eq matchExpression obj hplain hstart, hhead]
    rw [zbxJsonobjQuery]
    generalize jsonpathSearch matchExpression obj path = result at *
    obtain ⟨ret, ctx⟩ := result
    obtain rfl : ret = true := hret
    dsimp only at hinput ⊢
    rw [if_pos (by rw [hfunctions]; exact cons_ne_nil _ _), hfunctions, jsonpathApplyFunctions,
      jsonpathApplyFunction, if_neg (by decide)]
    cases path.definite with
    | true =>
      rw [if_pos rfl, if_pos rfl, definiteElements_head hinput, bind_assoc]
      rfl
    | false =>
      rw [if_neg Bool.false_ne_true, if_neg Bool.false_ne_true, bind_some, bind_some,
        bind_some, hinput]

end

def lastTwo : Jsonpath where
  segments :=
    [⟨.matchNames [['a']], true⟩, ⟨.matchRange (some (-2)) none, false⟩, ⟨.function .first, false⟩]
  definite := false
  firstMatch := true

def nestedArrays : Jsonobj ℕ :=
  .object [(['b'], .array [.object [(['a'], .array [.number 1, .number 2, .number 3])]]),
    (['a'], .array [.number 4, .array [.number 5]])]

theorem zbxJsonobjQuery_selection_lastTwo :
    ((fullResult (fun _ ctx _ _ _ => (false, ctx)) nestedArrays lastTwo).map Ref.value).Perm
        ((selection lastTwo.selectors [nestedArrays.root]).map Target.pointer) ∧
      zbxJsonobjQuery (fun _ _ => none) (fun _ ctx _ _ _ => (false, ctx)) nestedArrays lastTwo =
        some (.value (.pointer ⟨[0, 1], .number 4⟩)) := by
  have hcompile : zbxJsonpathCompile (fun _ => (0, false)) "$..a[-2:].first()".toList =
      .ok lastTwo := by
    decide +kernel
  have hplain : ∀ segment ∈ lastTwo.segments, segment.Plain := by
    intro segment hsegment
    obtain rfl | rfl | rfl := by simpa [lastTwo] using hsegment
    all_goals exact nofun
  obtain ⟨hperm, -, hfirst⟩ := zbxJsonobjQuery_selection hcompile hplain (fun _ _ => none)
    (fun _ ctx _ _ _ => (false, ctx)) nestedArrays
  exact ⟨hperm, (hfirst [] rfl).trans rfl⟩

end Zabbix.JsonPath
