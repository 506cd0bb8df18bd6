import Zabbix.Foundation.Except
import Zabbix.Json.Filter
import Zabbix.Json.Query

/-!
# Compiled paths

What `zbx_jsonpath_compile` makes sure of: functions stand at the end of a path only, and a search
for a path stops at the first match only if the path is definite or has the function first().
-/

namespace Zabbix.JsonPath

open List Zabbix.Expr Zabbix.Json

variable {list start ptr : List Char}

theorem jsonpathError_ne_ok {α : Type} (path : List Char) (value : α) :
    jsonpathError path ≠ .ok value := by
  unfold jsonpathError
  split_ifs <;> exact nofun

def ParsedSegment.Sound (parsed : ParsedSegment) : Prop :=
  parsed.firstMatch = true → parsed.data = .function .first

variable {parsed : ParsedSegment}

theorem jsonpathParseNames_sound (h : jsonpathParseNames list = .ok parsed) : parsed.Sound := by
  obtain ⟨result, -, rfl⟩ := map_eq_ok h
  exact nofun

theorem jsonpathParseIndexes_sound (h : jsonpathParseIndexes list = .ok parsed) : parsed.Sound := by
  obtain ⟨result, -, rfl⟩ := map_eq_ok h
  dsimp only
  split_ifs <;> exact nofun

theorem jsonpathParseDotSegment_sound (h : jsonpathParseDotSegment start = .ok parsed) :
    parsed.Sound := by
  unfold jsonpathParseDotSegment at h
  dsimp only at h
  split_ifs at h
  · obtain rfl := Except.ok.inj h
    exact nofun
  · split at h
    · obtain rfl := Except.ok.inj h
      intro hfirst
      rw [of_decide_eq_true hfirst]
    · exact absurd h (jsonpathError_ne_ok _ _)
  · obtain rfl := Except.ok.inj h
    exact nofun
  · exact absurd h (jsonpathError_ne_ok _ _)

theorem jsonpathParseBracketSegment_sound
    {parseExpression : List Char → Except String (Expression × List Char)}
    (h : jsonpathParseBracketSegment parseExpression start = .ok parsed) :
    parsed.Sound := by
  obtain ⟨segment, hsegment, h⟩ := bind_eq_ok h
  have hsound : segment.Sound := by
    split_ifs at hsegment
    · obtain ⟨result, -, rfl⟩ := map_eq_ok hsegment
      exact nofun
    · obtain rfl := Except.ok.inj hsegment
      exact nofun
    · exact jsonpathParseNames_sound hsegment
    · exact jsonpathParseIndexes_sound hsegment
    · exact absurd hsegment (jsonpathError_ne_ok _ _)
  dsimp only at h
  split_ifs at h
  · exact absurd h (jsonpathError_ne_ok _ _)
  · obtain rfl := Except.ok.inj h
    exact hsound

structure Jsonpath.Ordered (path : Jsonpath) : Prop where
  selectors : ∀ segment ∈ path.selectors, segment.data.isFunction = false
  firstMatch : path.firstMatch = true → ∃ segment ∈ path.segments, segment.data = .function .first

variable {parseExpression : Bool → List Char → Except String (Expression × List Char)}

theorem selectors_concat {segments : List Segment} {segment : Segment}
    (h : ∀ other ∈ segments.rdropWhile (·.data.isFunction), other.data.isFunction = false)
    (hlast : ¬ (segments.getLast?.any (·.data.isFunction) ∧ !segment.data.isFunction)) :
    ∀ other ∈ (segments ++ [segment]).rdropWhile (·.data.isFunction),
      other.data.isFunction = false := by
  intro other hother
  rw [rdropWhile_concat] at hother
  split_ifs at hother with hfunction
  · exact h other hother
  · have hself : segments.rdropWhile (·.data.isFunction) = segments := by
      rw [rdropWhile_eq_self_iff]
      intro hne hend
      apply hlast
      rw [List.getLast?_eq_some_getLast hne, Bool.eq_false_iff.mpr hfunction]
      exact ⟨hend, rfl⟩
    obtain hold | hnew := mem_append.mp hother
    · rw [← hself] at hold
      exact h other hold
    · obtain rfl := mem_singleton.mp hnew
      exact Bool.eq_false_iff.mpr hfunction

variable {path : Jsonpath}

theorem compileSegment_ordered {next : Jsonpath} {ptr' : List Char} (hordered : path.Ordered)
    (h : compileSegment parseExpression path ptr = .ok (next, ptr')) :
    next.Ordered ∧ next.segments ≠ [] := by
  obtain ⟨segment, hsegment, h⟩ := bind_eq_ok h
  generalize (if charAt ptr = '.' ∧ charAt ptr.tail = '.' then ptr.tail.tail
    else if charAt ptr = '.' then ptr.tail else ptr) = start at hsegment h
  have hsound : segment.Sound := by
    split_ifs at hsegment
    · exact jsonpathParseBracketSegment_sound hsegment
    · exact absurd hsegment (jsonpathError_ne_ok _ _)
    · exact jsonpathParseDotSegment_sound hsegment
    · obtain rfl := Except.ok.inj hsegment
      exact nofun
    · exact absurd hsegment (jsonpathError_ne_ok _ _)
  split_ifs at h with hlast
  · exact absurd h (jsonpathError_ne_ok _ _)
  · obtain ⟨rfl, -⟩ := Prod.mk.inj (Except.ok.inj h)
    refine ⟨⟨?_, ?_⟩, by simp⟩
    · exact selectors_concat hordered.selectors hlast
    · intro hfirst
      obtain hold | hnew := Bool.or_eq_true_iff.mp hfirst
      · obtain ⟨other, hother, hdata⟩ := hordered.firstMatch hold
        exact ⟨other, mem_append_left _ hother, hdata⟩
      · exact ⟨_, mem_append_right _ mem_cons_self, hsound hnew⟩

theorem compileLoop_ordered {fuel : ℕ} {path' : Jsonpath} (hordered : path.Ordered)
    (hne : path.segments ≠ [] ∨ charAt ptr ≠ '\x00')
    (h : compileLoop parseExpression fuel path ptr = .ok path') :
    path'.Ordered ∧ path'.segments ≠ [] := by
  induction fuel generalizing path ptr with
  | zero => exact absurd h (jsonpathError_ne_ok _ _)
  | succ fuel ih =>
    rw [compileLoop] at h
    split_ifs at h with hend
    · obtain rfl := Except.ok.inj h
      exact ⟨hordered, hne.resolve_right (not_not_intro hend)⟩
    · obtain ⟨⟨next, ptr'⟩, hsegment, h⟩ := bind_eq_ok h
      obtain ⟨hnext, hnext'⟩ := compileSegment_ordered hordered hsegment
      exact ih hnext (Or.inl hnext') h

theorem compileWith_ordered {text : List Char} (h : compileWith parseExpression text = .ok path) :
    (∀ segment ∈ path.selectors, segment.data.isFunction = false) ∧ path.segments ≠ [] ∧
      (path.firstMatch = true → path.definite = true ∨ .first ∈ path.functions) := by
  unfold compileWith at h
  split_ifs at h with hstart
  obtain ⟨jpquery, hloop, rfl⟩ := map_eq_ok h
  have hinit : ({ segments := [], definite := true, firstMatch := false } : Jsonpath).Ordered :=
    ⟨fun segment hsegment => absurd hsegment not_mem_nil, nofun⟩
  obtain ⟨hordered, hne⟩ := compileLoop_ordered hinit (Or.inr (fun h => hstart (Or.inr h))) hloop
  refine ⟨hordered.selectors, hne, ?_⟩
  intro hfirst
  obtain hfunction | hdefinite := Bool.or_eq_true_iff.mp hfirst
  · right
    obtain ⟨segment, hsegment, hdata⟩ := hordered.firstMatch hfunction
    unfold Jsonpath.functions
    apply mem_filterMap.mpr
    refine ⟨segment, ?_, by rw [hdata]⟩
    have hsplit : jpquery.segments.rdropWhile (·.data.isFunction) ++
        jpquery.segments.rtakeWhile (·.data.isFunction) = jpquery.segments :=
      rdropWhile_append_rtakeWhile
    rw [← hsplit] at hsegment
    obtain hselector | hfunction := mem_append.mp hsegment
    · have hfalse := hordered.selectors segment hselector
      rw [hdata] at hfalse
      contradiction
    · exact hfunction
  · exact Or.inl hdefinite

end Zabbix.JsonPath
