import Zabbix.Json.Buffer

/-!
# Copies of a builder

The functions of the builder on the memory, and `zbx_json_clone`, which copies the structure and
`buffer_size` bytes of an allocated buffer. The terminator is the byte behind them.
-/

namespace Zabbix.Json

open Function List Option Zabbix.JsonGrammar
open Zabbix.Memory (overwrite overwrite_within)

def JsonStruct.fields (x : JsonStruct) : ZbxJson where
  buffer := []
  bufferOffset := x.bufferOffset
  status := x.status
  level := x.level

def zbxJsonAddraw (j : ZbxJson) (name : Option (List Char)) (data : List Char) : ZbxJson :=
  let len := startLen j name + (cString data).length
  let text := startText j name ++ cString data
  { j with
    buffer := writeAt (moveEnd j len) j.bufferOffset text
    bufferOffset := j.bufferOffset + text.length
    status := .comma }

def writeBuffer (h : Heap) (j p : ℕ) (text : List Char) : Option Heap :=
  (h.structs j).bind fun x =>
    ((h.memory x.buffer).bind fun memory => overwrite memory p text).map fun memory =>
      h.setMemory memory x.buffer

def zbxJsonSetempty (h : Heap) (j : ℕ) : Option Heap :=
  (h.structs j).bind fun x =>
    writeBuffer (h.setStruct j
      { x with bufferOffset := 0, bufferSize := 0, status := .empty, level := 0 }) j 0 ['\x00']

section Functions

variable (al : Allocator)

/-- `__zbx_json_addobject`. -/
def addContainerIn (h : Heap) (j : ℕ) (name : Option (List Char)) (object : Bool) : Option Heap :=
  (h.structs j).bind fun x =>
    let text := startText x.fields name ++ brackets object
    insertText al h j (2 + startLen x.fields name) text (text.length - 1) .empty 1

def addstringLimitIn (h : Heap) (j : ℕ) (name string : Option (List Char)) (type : JsonType)
    (maxSize : ℕ) : Option Heap :=
  (h.structs j).bind fun x =>
    let text := limitText x.fields name string type maxSize
    insertText al h j (limitLen x.fields name string type maxSize) text text.length .comma 0

def addrawIn (h : Heap) (j : ℕ) (name : Option (List Char)) (data : List Char) : Option Heap :=
  (h.structs j).bind fun x =>
    let text := startText x.fields name ++ cString data
    insertText al h j (startLen x.fields name + (cString data).length) text text.length .comma 0

def closeIn (h : Heap) (j : ℕ) : Option Heap :=
  (h.structs j).map fun x =>
    if x.level = 1 then h
    else
      h.setStruct j
        { x with level := x.level - 1, bufferOffset := x.bufferOffset + 1, status := .comma }

inductive Call
  | addcontainer (name : Option (List Char)) (object : Bool)
  | addstringLimit (name string : Option (List Char)) (type : JsonType) (maxSize : ℕ)
  | addraw (name : Option (List Char)) (data : List Char)
  | close
  | clean

def Call.execute (h : Heap) (j : ℕ) : Call → Option Heap
  | .addcontainer name object => addContainerIn al h j name object
  | .addstringLimit name string type maxSize => addstringLimitIn al h j name string type maxSize
  | .addraw name data => addrawIn al h j name data
  | .close => closeIn h j
  | .clean => (zbxJsonSetempty h j).bind fun h => addContainerIn al h j none true

inductive Start
  | init (allocate : ℕ) (object : Bool)
  | initWith (src : List Char)

/-- `zbx_json_init_with` is undefined where it reads in front of its buffer. -/
def Start.execute (h : Heap) (j : ℕ) : Start → Option Heap
  | .init allocate object =>
    (h.structs j).bind fun x =>
      (zbxJsonRealloc al (h.setStruct j
        { x with
          buffer := .null
          bufferAllocated := 0
          bufferOffset := 0
          bufferSize := 0
          status := .empty
          level := 0 }) j allocate).bind fun h =>
        (writeBuffer h j 0 ['\x00']).bind fun h => addContainerIn al h j none object
  | .initWith src =>
    if src.length < 2 then none
    else
      (h.structs j).bind fun x =>
        (zbxJsonRealloc al (h.setStruct j { x with buffer := .null, bufferAllocated := 0 }) j
          (src.length + 1)).bind fun h =>
          (writeBuffer h j 0 src).bind fun h =>
            (writeBuffer h j src.length ['\x00']).bind fun h =>
              (h.structs j).map fun x =>
                h.setStruct j
                  { x with
                    bufferOffset := src.length - 1
                    bufferSize := src.length
                    status := initWithStatus src
                    level := 1 }

def zbxJsonClone (h : Heap) (j k : ℕ) : Option Heap :=
  (h.structs j).bind fun x =>
    match x.buffer with
    | .allocated block =>
      ((h.blocks block).bind fun memory =>
        if x.bufferSize ≤ memory.length then
          overwrite (al.fresh h.next x.bufferAllocated) 0 (memory.take x.bufferSize)
        else none).map fun memory =>
          (h.allocate memory).setStruct k { x with buffer := .allocated h.next }
    | .bufStat i => if i = j then some (h.setStruct k { x with buffer := .bufStat k }) else none
    | .null => none

end Functions

variable {al : Allocator} {h h' : Heap} {j k p need : ℕ} {x y : JsonStruct}
  {memory memory' text string : List Char} {name : Option (List Char)} {z : ZbxJson} {g c : Char}

def Call.apply (z : ZbxJson) : Call → ZbxJson
  | .addcontainer name object => addContainer z name object
  | .addstringLimit name string type maxSize => (zbxJsonAddstringLimit z name string type maxSize).1
  | .addraw name data => zbxJsonAddraw z name data
  | .close => (zbxJsonClose z).getD z
  | .clean => zbxJsonInit

def Call.Fits : Call → Prop
  | .addstringLimit _ string type maxSize =>
    (zbxJsonStringsizeLimit string type maxSize).size =
      (zbxJsonInsstringLimit string type
        (zbxJsonStringsizeLimit string type maxSize).cutoff).length
  | _ => True

theorem fits_addstring (name string : Option (List Char)) (type : JsonType) :
    (Call.addstringLimit name string type 0).Fits := by
  rw [Call.Fits, zbxJsonStringsizeLimit_unlimited]
  exact stringsize_eq string type

structure Formed (z : ZbxJson) : Prop where
  offset : z.bufferOffset + z.level ≤ z.buffer.length
  level : 1 ≤ z.level
  text : '\x00' ∉ z.buffer

theorem insChar_nul (hc : c ≠ '\x00') : '\x00' ∉ insChar c := by
  obtain ⟨-, heq⟩ | ⟨e, he, -, heq⟩ | ⟨w, hw, -, -, heq⟩ := insChar_cases c
  · rw [heq]
    exact fun hmem => hc (mem_singleton.mp hmem).symm
  · rw [heq]
    intro hmem
    obtain hmem | hmem := mem_cons.mp hmem
    · exact absurd hmem (by decide)
    · rw [← mem_singleton.mp hmem] at he
      exact absurd he (by decide)
  · obtain ⟨a, b, d, e, ha, hb, hd, he, rfl⟩ := mem_hex4.mp hw
    rw [heq]
    have hzero : ¬ isHex '\x00' := by decide
    simp only [mem_cons, not_mem_nil, or_false, not_or]
    exact ⟨by decide, by decide, fun h => hzero (h ▸ ha), fun h => hzero (h ▸ hb),
      fun h => hzero (h ▸ hd), fun h => hzero (h ▸ he)⟩

theorem cString_nul (string : List Char) : '\x00' ∉ cString string := by
  intro hmem
  exact absurd (mem_takeWhile_imp hmem) (by decide)

theorem insChars_nul (hnul : '\x00' ∉ text) : '\x00' ∉ text.flatMap insChar := by
  intro hmem
  obtain ⟨c, hc, hin⟩ := mem_flatMap.mp hmem
  exact insChar_nul (ne_of_mem_of_not_mem hc hnul) hin

theorem cString_append (hnul : '\x00' ∉ text) (rest : List Char) :
    cString (text ++ rest) = text ++ cString rest := by
  apply takeWhile_append_of_pos
  intro c hc
  simpa using ne_of_mem_of_not_mem hc hnul

theorem quotes_nul (quotes : Prop) [Decidable quotes] (hnul : '\x00' ∉ text) :
    '\x00' ∉ (if quotes then ['"'] else []) ++ text ++ (if quotes then ['"'] else []) := by
  have hquote : '\x00' ∉ (if quotes then ['"'] else []) := by
    split
    · decide
    · exact not_mem_nil
  simp only [mem_append, not_or]
  exact ⟨⟨hquote, hnul⟩, hquote⟩

theorem startText_nul (z : ZbxJson) (name : Option (List Char)) : '\x00' ∉ startText z name := by
  have hcomma : '\x00' ∉ (if z.status = .comma then [','] else []) := by
    split
    · decide
    · exact not_mem_nil
  rw [startText, mem_append, not_or]
  refine ⟨hcomma, ?_⟩
  cases name with
  | none => exact not_mem_nil
  | some name =>
    change '\x00' ∉ zbxJsonInsstring (some name) .string ++ [':']
    rw [mem_append, not_or]
    exact ⟨quotes_nul _ (insChars_nul (cString_nul _)), by decide⟩

theorem limitText_nul (z : ZbxJson) (name string : Option (List Char)) (type : JsonType)
    (maxSize : ℕ) : '\x00' ∉ limitText z name string type maxSize := by
  rw [limitText, mem_append, not_or]
  refine ⟨startText_nul z name, quotes_nul _ (insChars_nul ?_)⟩
  split
  · exact cString_nul _
  · exact fun hmem => cString_nul _ (mem_of_mem_take hmem)

theorem brackets_nul (object : Bool) : '\x00' ∉ brackets object := by cases object <;> decide

theorem zbxJsonAddstringLimit_eq (hz : z.bufferOffset ≤ z.buffer.length)
    (name string : Option (List Char)) (type : JsonType) (maxSize : ℕ)
    (hfits : (Call.addstringLimit name string type maxSize).Fits) :
    limitLen z name string type maxSize = (limitText z name string type maxSize).length ∧
      (zbxJsonAddstringLimit z name string type maxSize).1 =
        z.insert (limitText z name string type maxSize)
          (limitText z name string type maxSize).length .comma 0 := by
  have hlen : limitLen z name string type maxSize =
      (limitText z name string type maxSize).length := by
    rw [limitLen, limitText, length_append, startLen_eq, hfits]
  refine ⟨hlen, ?_⟩
  rw [zbxJsonAddstringLimit, writeAt_moveEnd hz hlen]
  rfl

theorem zbxJsonAddraw_eq (hz : z.bufferOffset ≤ z.buffer.length) (name : Option (List Char))
    (data : List Char) : zbxJsonAddraw z name data =
      z.insert (startText z name ++ cString data) (startText z name ++ cString data).length
        .comma 0 := by
  have hlen : startLen z name + (cString data).length =
      (startText z name ++ cString data).length := by
    rw [length_append, startLen_eq]
  rw [zbxJsonAddraw, writeAt_moveEnd hz hlen]
  rfl

theorem formed_insert {step levels : ℕ} {status : JsonStatus}
    (hz : z.bufferOffset + z.level ≤ z.buffer.length) (hnul : '\x00' ∉ z.buffer)
    (htext : '\x00' ∉ text) (hstep : step + levels ≤ text.length)
    (hlevel : 1 ≤ z.level + levels) : Formed (z.insert text step status levels) where
  offset := by
    simp only [ZbxJson.insert, length_append, length_take, length_drop]
    omega
  level := hlevel
  text := by
    simp only [ZbxJson.insert, mem_append, not_or]
    exact ⟨⟨fun h => hnul (mem_of_mem_take h), htext⟩, fun h => hnul (mem_of_mem_drop h)⟩

theorem formed_brackets {object : Bool} (hz : z.bufferOffset + z.level ≤ z.buffer.length)
    (hnul : '\x00' ∉ z.buffer) (name : Option (List Char)) : Formed (addContainer z name object) := by
  rw [addContainer_eq (by omega)]
  apply formed_insert hz hnul
  · rw [mem_append, not_or]
    exact ⟨startText_nul z name, brackets_nul object⟩
  · rw [length_append, length_brackets]
    omega
  · exact Nat.le_add_left 1 z.level

def emptyJson : ZbxJson where
  buffer := []
  bufferOffset := 0
  status := .empty
  level := 0

theorem formed_start (object : Bool) : Formed (addContainer emptyJson none object) :=
  formed_brackets (Nat.le_refl _) not_mem_nil none

theorem Formed.apply (hz : Formed z) (c : Call) (hfits : c.Fits) : Formed (c.apply z) := by
  have hoffset : z.bufferOffset ≤ z.buffer.length := (Nat.le_add_right _ _).trans hz.offset
  cases c with
  | addcontainer name object => exact formed_brackets hz.offset hz.text name
  | addstringLimit name string type maxSize =>
    rw [Call.apply, (zbxJsonAddstringLimit_eq hoffset name string type maxSize hfits).2]
    exact formed_insert hz.offset hz.text (limitText_nul z name string type maxSize) (Nat.le_refl _)
      hz.level
  | addraw name data =>
    rw [Call.apply, zbxJsonAddraw_eq hoffset]
    apply formed_insert hz.offset hz.text ?_ (Nat.le_refl _) hz.level
    rw [mem_append, not_or]
    exact ⟨startText_nul z name, cString_nul data⟩
  | close =>
    rw [Call.apply, zbxJsonClose]
    split
    · exact hz
    · next hlevel =>
      have hoffset := hz.offset
      have hpos := hz.level
      refine ⟨?_, ?_, hz.text⟩
      · change z.bufferOffset + 1 + (z.level - 1) ≤ z.buffer.length
        omega
      · change 1 ≤ z.level - 1
        omega
  | clean => exact formed_start true

theorem startText_status {z' : ZbxJson} (h : z.status = z'.status) (name : Option (List Char)) :
    startText z name = startText z' name := by
  rw [startText, startText, h]

theorem startLen_status {z' : ZbxJson} (h : z.status = z'.status) (name : Option (List Char)) :
    startLen z name = startLen z' name := by
  rw [startLen, startLen, h]

variable (hx : Represents h j z g x memory)

include hx

variable (hz : z.bufferOffset ≤ z.buffer.length)

include hz

theorem Represents.addContainerIn (al : Allocator) (name : Option (List Char)) (object : Bool)
    : ∃ h', addContainerIn al h j name object = some h' ∧
      Holding h' j (addContainer z name object) g ∧ OnlyAt j h h' := by
  have hlen : 2 + startLen z name = (startText z name ++ brackets object).length := by
    rw [length_append, length_brackets, startLen_eq, Nat.add_comm]
  rw [Json.addContainerIn, hx.place.found, bind_some, startText_status hx.status,
    startLen_status hx.status, hlen, addContainer_eq hz]
  exact hx.insertText hz al _ _ _ _

theorem Represents.addstringLimitIn (al : Allocator) (name string : Option (List Char))
    (type : JsonType) (maxSize : ℕ) (hfits : (Call.addstringLimit name string type maxSize).Fits) :
    ∃ h', addstringLimitIn al h j name string type maxSize = some h' ∧
      Holding h' j (zbxJsonAddstringLimit z name string type maxSize).1 g ∧ OnlyAt j h h' := by
  obtain ⟨hlen, hadd⟩ := zbxJsonAddstringLimit_eq hz name string type maxSize hfits
  have htext : limitText x.fields name string type maxSize =
      limitText z name string type maxSize := by
    rw [limitText, limitText, startText_status hx.status]
  have hreserved : limitLen x.fields name string type maxSize =
      (limitText z name string type maxSize).length := by
    rw [← hlen, limitLen, limitLen, startLen_status hx.status]
  rw [Json.addstringLimitIn, hx.place.found, bind_some, htext, hreserved, hadd]
  exact hx.insertText hz al _ _ _ _

theorem Represents.addrawIn (al : Allocator) (name : Option (List Char)) (data : List Char)
    : ∃ h', addrawIn al h j name data = some h' ∧
      Holding h' j (zbxJsonAddraw z name data) g ∧ OnlyAt j h h' := by
  have hlen : startLen z name + (cString data).length =
      (startText z name ++ cString data).length := by
    rw [length_append, startLen_eq]
  rw [Json.addrawIn, hx.place.found, bind_some, startText_status hx.status,
    startLen_status hx.status, hlen, zbxJsonAddraw_eq hz]
  exact hx.insertText hz al _ _ _ _

omit hz

theorem Represents.closeIn :
    ∃ h', closeIn h j = some h' ∧ Holding h' j ((zbxJsonClose z).getD z) g ∧ OnlyAt j h h' := by
  rw [Json.closeIn, hx.place.found, map_some, zbxJsonClose, hx.level]
  by_cases hlevel : z.level = 1
  · rw [if_pos hlevel, if_pos hlevel]
    exact ⟨h, rfl, ⟨x, memory, hx⟩, .refl j h⟩
  · rw [if_neg hlevel, if_neg hlevel]
    refine ⟨_, rfl, ⟨_, memory, hx.place.setStruct _ rfl rfl rfl, hx.text, ?_, hx.size, rfl, rfl⟩,
      hx.place.onlyAt_setStruct _ rfl⟩
    change x.bufferOffset + 1 = z.bufferOffset + 1
    rw [hx.offset]

omit hx

theorem At.writeBuffer (hx : At h j x memory) (hwrite : overwrite memory p text = some memory') :
    ∃ h' bufStat, writeBuffer h j p text = some h' ∧
      At h' j { x with bufStat := bufStat } memory' ∧ OnlyAt j h h' := by
  obtain ⟨bufStat, hset⟩ := hx.setMemory (Memory.length_overwrite hwrite)
  refine ⟨_, bufStat, ?_, hset, hx.onlyAt_setMemory memory'⟩
  rw [Json.writeBuffer, hx.found, bind_some, hx.reads, bind_some, hwrite]
  rfl

theorem At.setempty (hx : At h j x memory) (hpos : 0 < memory.length) :
    ∃ h', zbxJsonSetempty h j = some h' ∧ Holding h' j emptyJson '\x00' ∧ OnlyAt j h h' := by
  have hwrite : overwrite memory 0 ['\x00'] = some ('\x00' :: memory.drop 1) :=
    overwrite_within (a := []) rfl hpos
  have hset := hx.setStruct
    { x with bufferOffset := 0, bufferSize := 0, status := .empty, level := 0 } rfl rfl rfl
  have hfields := hx.onlyAt_setStruct
    { x with bufferOffset := 0, bufferSize := 0, status := .empty, level := 0 } rfl
  obtain ⟨h', bufStat, hrun, hat, honly⟩ := hset.writeBuffer hwrite
  refine ⟨h', ?_, ⟨_, _, hat, ⟨memory.drop 1, rfl⟩, rfl, rfl, rfl, rfl⟩, hfields.trans honly⟩
  rw [zbxJsonSetempty, hx.found, bind_some, hrun]

theorem At.length_static (hx : At h j x memory) (hplace : x.buffer = .bufStat j) :
    memory.length = zbxJsonStatBufLen := by
  have hreads : some x.bufStat = some memory := by
    rw [← hx.reads, hplace, Heap.memory, hx.found]
    rfl
  rw [← some_inj.mp hreads, hx.bufStat]

theorem Represents.pos (hx : Represents h j z g x memory) : z.buffer.length < memory.length := by
  obtain ⟨rest, htext⟩ := hx.text
  rw [htext, length_append, length_cons]
  omega

theorem Call.execute_holding (hx : Holding h j z '\x00') (hz : Formed z) (al : Allocator) (c : Call)
    (hfits : c.Fits) : ∃ h', c.execute al h j = some h' ∧ Holding h' j (c.apply z) '\x00' ∧
      OnlyAt j h h' := by
  have hoffset : z.bufferOffset ≤ z.buffer.length := (Nat.le_add_right _ _).trans hz.offset
  obtain ⟨x, memory, hx⟩ := hx
  cases c with
  | addcontainer name object => exact hx.addContainerIn hoffset al name object
  | addstringLimit name string type maxSize =>
    exact hx.addstringLimitIn hoffset al name string type maxSize hfits
  | addraw name data => exact hx.addrawIn hoffset al name data
  | close => exact hx.closeIn
  | clean =>
    obtain ⟨h₁, hempty, ⟨x₁, memory₁, hx₁⟩, honly₁⟩ := hx.place.setempty (Nat.zero_lt_of_lt hx.pos)
    obtain ⟨h₂, hadd, hholding, honly₂⟩ := hx₁.addContainerIn (Nat.le_refl _) al none true
    refine ⟨h₂, ?_, hholding, honly₁.trans honly₂⟩
    rw [Call.execute, hempty, bind_some, hadd]

def Start.Text : Start → Prop
  | .init _ _ => True
  | .initWith src => '\x00' ∉ src

def Start.apply : Start → Option ZbxJson
  | .init _ object => some (addContainer emptyJson none object)
  | .initWith src => zbxJsonInitWith src

theorem Start.apply_formed {s : Start} (htext : s.Text) (hz : s.apply = some z) : Formed z := by
  cases s with
  | init allocate object =>
    rw [← some_inj.mp hz]
    exact formed_start object
  | initWith src =>
    rw [Start.apply, zbxJsonInitWith] at hz
    split at hz
    · cases hz
    · next hlength =>
      rw [← some_inj.mp hz]
      refine ⟨?_, Nat.le_refl 1, htext⟩
      change src.length - 1 + 1 ≤ src.length
      omega

theorem Start.execute_holding (hx : h.structs j = some x)
    (hstat : x.bufStat.length = zbxJsonStatBufLen) (al : Allocator) (s : Start) :
    (s.apply = none ∧ s.execute al h j = none) ∨
      ∃ z h', s.apply = some z ∧ s.execute al h j = some h' ∧ Holding h' j z '\x00' ∧
        ∀ k, k ≠ j → h'.structs k = h.structs k := by
  cases s with
  | init allocate object =>
    right
    have hset := structs_setStruct h j
      { x with
        buffer := .null
        bufferAllocated := 0
        bufferOffset := 0
        bufferSize := 0
        status := .empty
        level := 0 }
    obtain ⟨h₁, x₁, memory, hrealloc, hat, -, hpos, hoffset, hsize, hstatus, hlevel,
        hothers⟩ := zbxJsonRealloc_null hset rfl hstat al allocate
    have hwrite : overwrite memory 0 ['\x00'] = some ('\x00' :: memory.drop 1) :=
      overwrite_within (a := []) rfl hpos
    obtain ⟨h₂, bufStat, hzero, hat₂, honly₂⟩ := hat.writeBuffer hwrite
    have hempty : Represents h₂ j emptyJson '\x00' { x₁ with bufStat := bufStat }
        ('\x00' :: memory.drop 1) :=
      ⟨hat₂, ⟨memory.drop 1, rfl⟩, hoffset, hsize, hstatus, hlevel⟩
    obtain ⟨h₃, hadd, hholding, honly₃⟩ := hempty.addContainerIn (Nat.le_refl _) al none object
    refine ⟨_, h₃, rfl, ?_, hholding, ?_⟩
    · rw [Start.execute, hx, bind_some, hrealloc, bind_some, hzero, bind_some, hadd]
    · intro k hk
      rw [honly₃.structs k hk, honly₂.structs k hk, hothers k hk]
      exact update_of_ne hk ..
  | initWith src =>
    rw [Start.apply, zbxJsonInitWith, Start.execute]
    by_cases hlength : src.length < 2
    · left
      rw [if_pos hlength, if_pos hlength]
      exact ⟨rfl, rfl⟩
    · right
      rw [if_neg hlength, if_neg hlength]
      have hset := structs_setStruct h j { x with buffer := .null, bufferAllocated := 0 }
      obtain ⟨h₁, x₁, memory, hrealloc, hat, hlarge, -, -, -, -, -, hothers⟩ :=
        zbxJsonRealloc_null hset rfl hstat al (src.length + 1)
      obtain ⟨c, rest, hrest⟩ : ∃ c rest, memory.drop src.length = c :: rest :=
        exists_cons_of_length_pos (by rw [length_drop]; omega)
      have hcopy : overwrite memory 0 src = some (src ++ c :: rest) := by
        rw [← hrest]
        exact overwrite_within (a := []) rfl (Nat.le_of_succ_le hlarge)
      have hzero : overwrite (src ++ c :: rest) src.length ['\x00'] = some (src ++ '\x00' :: rest) :=
        Memory.overwrite_one _ _ rfl
      obtain ⟨h₂, bufStat₂, hwrite₂, hat₂, honly₂⟩ := hat.writeBuffer hcopy
      obtain ⟨h₃, bufStat₃, hwrite₃, hat₃, honly₃⟩ := hat₂.writeBuffer hzero
      have hdone := hat₃.setStruct
        { { x₁ with bufStat := bufStat₃ } with
          bufferOffset := src.length - 1
          bufferSize := src.length
          status := initWithStatus src
          level := 1 } rfl rfl rfl
      refine ⟨_, _, rfl, ?_, ⟨_, _, hdone, ⟨rest, rfl⟩, rfl, rfl, rfl, rfl⟩, ?_⟩
      · rw [hx, bind_some, hrealloc, bind_some, hwrite₂, bind_some, hwrite₃, bind_some, hat₃.found]
        rfl
      · intro k hk
        apply (update_of_ne hk ..).trans
        rw [honly₃.structs k hk, honly₂.structs k hk, hothers k hk]
        exact update_of_ne hk ..

/-- The builders that are set up and then called in any order; the structure of a new builder is not
set. -/
inductive Reached (al : Allocator) (j : ℕ) : Heap → Prop
  | start {h h' : Heap} {x : JsonStruct} (s : Start) (hx : h.structs j = some x)
      (hstat : x.bufStat.length = zbxJsonStatBufLen) (htext : s.Text)
      (hs : s.execute al h j = some h') : Reached al j h'
  | call {h h' : Heap} (c : Call) (hfits : c.Fits) (hreached : Reached al j h)
      (hc : c.execute al h j = some h') : Reached al j h'

theorem Reached.holding (hreached : Reached al j h) : ∃ z, Holding h j z '\x00' ∧ Formed z := by
  induction hreached with
  | start s hx hstat htext hs =>
    obtain ⟨-, hnone⟩ | ⟨z, h', happly, hexecute, hholding, -⟩ := s.execute_holding hx hstat al
    · rw [hs] at hnone
      cases hnone
    · rw [hs, some_inj] at hexecute
      rw [hexecute]
      exact ⟨z, hholding, s.apply_formed htext happly⟩
  | call c hfits _ hc ih =>
    obtain ⟨z, hholding, hz⟩ := ih
    obtain ⟨h', hexecute, hafter, -⟩ := c.execute_holding hholding hz al hfits
    rw [hc, some_inj] at hexecute
    rw [hexecute]
    exact ⟨c.apply z, hafter, hz.apply c hfits⟩

def Heap.content (h : Heap) (j : ℕ) : Option (List Char) :=
  ((h.structs j).bind fun x => h.memory x.buffer).bind fun memory =>
    if '\x00' ∈ memory then some (cString memory) else none

def executeAll (al : Allocator) (h : Heap) (j : ℕ) (calls : List Call) : Option Heap :=
  calls.foldlM (fun h c => c.execute al h j) h

def Unchanged (h h' : Heap) (j : ℕ) : Prop :=
  h'.structs j = h.structs j ∧ ∀ x, h.structs j = some x → h'.memory x.buffer = h.memory x.buffer

/-- The builder at `j` was copied to `k`: the copy has its text, and so after calls on either; calls
on the copy leave the builder as it was. -/
def Faithful (al : Allocator) (h h' : Heap) (j k : ℕ) : Prop :=
  h'.content k = h.content j ∧
    ∀ calls : List Call, (∀ c ∈ calls, c.Fits) →
      ∃ hj hk, executeAll al h' j calls = some hj ∧ executeAll al h' k calls = some hk ∧
        hk.content k = hj.content j ∧ Unchanged h hk j

theorem Represents.content_eq (hx : Represents h j z '\x00' x memory) (hnul : '\x00' ∉ z.buffer) :
    h.content j = some z.buffer := by
  obtain ⟨rest, htext⟩ := hx.text
  have hmem : '\x00' ∈ memory := by
    rw [htext]
    exact mem_append_right _ mem_cons_self
  rw [Heap.content, hx.place.found, bind_some, hx.place.reads, bind_some, if_pos hmem, htext,
    cString_append hnul]
  change some (z.buffer ++ []) = some z.buffer
  rw [append_nil]

theorem Represents.content_ne (hx : Represents h j z g x memory) (hnul : '\x00' ∉ z.buffer)
    (hg : g ≠ '\x00') : h.content j ≠ some z.buffer := by
  obtain ⟨rest, htext⟩ := hx.text
  have hstring : cString (g :: rest) = g :: cString rest := by
    apply takeWhile_cons_of_pos
    exact decide_eq_true hg
  rw [Heap.content, hx.place.found, bind_some, hx.place.reads, bind_some]
  split
  · rw [htext, cString_append hnul, hstring]
    intro heq
    have hlength := congrArg List.length (some_inj.mp heq)
    rw [length_append, length_cons] at hlength
    omega
  · exact fun heq => nomatch heq

theorem executeAll_holding (al : Allocator) {calls : List Call} (hfits : ∀ c ∈ calls, c.Fits)
    (hx : Holding h j z '\x00') (hz : Formed z) :
    ∃ h', executeAll al h j calls = some h' ∧ h'.content j = some (calls.foldl Call.apply z).buffer ∧
      OnlyAt j h h' := by
  induction calls generalizing h z with
  | nil =>
    obtain ⟨x, memory, hrep⟩ := hx
    exact ⟨h, rfl, hrep.content_eq hz.text, .refl j h⟩
  | cons c calls ih =>
    obtain ⟨hc, hcalls⟩ := forall_mem_cons.mp hfits
    obtain ⟨h₁, hexecute, hholding, honly⟩ := c.execute_holding hx hz al hc
    obtain ⟨h', hrun, htext, honly'⟩ := ih hcalls hholding (hz.apply c hc)
    refine ⟨h', ?_, htext, honly.trans honly'⟩
    rw [executeAll, foldlM_cons, hexecute]
    exact hrun

theorem zbxJsonClone_holding (hx : Represents h j z '\x00' x memory) (hk : h.structs k = none)
    (al : Allocator) : ∃ h' g, zbxJsonClone al h j k = some h' ∧ Holding h' k z g ∧
      Beside h' k j x memory ∧ (g = '\x00' ↔ x.buffer = .bufStat j ∨
        (al.fresh h.next x.bufferAllocated)[x.bufferSize]? = some '\x00') := by
  obtain ⟨rest, htext⟩ := hx.text
  have hne : j ≠ k := by
    intro heq
    rw [← heq, hx.place.found] at hk
    cases hk
  obtain hplace | ⟨block, hblock, hplace⟩ := hx.place.place
  · have hreads : some x.bufStat = some memory := by
      rw [← hx.place.reads, hplace, Heap.memory, hx.place.found]
      rfl
    have hkept : (h.setStruct k { x with buffer := .bufStat k }).structs j = some x :=
      (update_of_ne hne ..).trans hx.place.found
    have hcopy : Represents (h.setStruct k { x with buffer := .bufStat k }) k z '\x00'
        { x with buffer := .bufStat k } memory := by
      refine ⟨⟨structs_setStruct .., ?_, .inl rfl, hx.place.bufStat, hx.place.allocated⟩, hx.text,
        hx.offset, hx.size, hx.status, hx.level⟩
      rw [Heap.memory, structs_setStruct, ← hreads]
      rfl
    refine ⟨_, '\x00', ?_, ⟨_, _, hcopy⟩, ⟨⟨hkept, ?_, hx.place.place, hx.place.bufStat,
      hx.place.allocated⟩, hne, ?_⟩, iff_of_true rfl (.inl hplace)⟩
    · rw [zbxJsonClone, hx.place.found, bind_some]
      simp only [hplace, if_true]
    · rw [hplace, Heap.memory, hkept, ← hreads]
      rfl
    · intro x' hx'
      rw [structs_setStruct, some_inj] at hx'
      rw [← hx', hplace]
      exact fun heq => hne (Place.bufStat.inj heq).symm
  · have hreads : h.blocks block = some memory := by
      rw [← hx.place.reads, hplace]
      rfl
    have hfresh := al.length_fresh h.next x.bufferAllocated
    have hlarge : z.buffer.length < (al.fresh h.next x.bufferAllocated).length := by
      rw [hfresh, ← hx.place.allocated]
      exact hx.pos
    obtain ⟨g, tail, htail⟩ : ∃ g tail,
        (al.fresh h.next x.bufferAllocated).drop z.buffer.length = g :: tail :=
      exists_cons_of_length_pos (by rw [length_drop]; omega)
    have hbyte : (al.fresh h.next x.bufferAllocated)[x.bufferSize]? = some g := by
      rw [hx.size, ← List.head?_drop, htail]
      rfl
    have hfront : memory.take x.bufferSize = z.buffer := by rw [htext, hx.size, take_left]
    have hcopy : overwrite (al.fresh h.next x.bufferAllocated) 0 (memory.take x.bufferSize) =
        some (z.buffer ++ g :: tail) := by
      rw [hfront, ← htail]
      exact overwrite_within (a := []) rfl hlarge.le
    have hwithin : x.bufferSize ≤ memory.length := by
      rw [hx.size]
      exact hx.pos.le
    have hlength : (z.buffer ++ g :: tail).length = x.bufferAllocated :=
      (Memory.length_overwrite hcopy).trans hfresh
    have hat : At ((h.allocate (z.buffer ++ g :: tail)).setStruct k
        { x with buffer := .allocated h.next }) k { x with buffer := .allocated h.next }
          (z.buffer ++ g :: tail) :=
      at_allocate rfl hx.place.bufStat hlength
    have hbeside : Beside h k j x memory := by
      refine ⟨hx.place, hne, ?_⟩
      intro x' hx'
      rw [hk] at hx'
      cases hx'
    refine ⟨_, g, ?_, ⟨_, _, hat, ⟨tail, rfl⟩, hx.offset, hx.size, hx.status, hx.level⟩,
      hbeside.allocate rfl, ?_⟩
    · rw [zbxJsonClone, hx.place.found, bind_some]
      simp only [hplace, hreads, bind_some, if_pos hwithin, hcopy, map_some]
    · rw [hbyte, hplace]
      constructor
      · intro hg
        rw [hg]
        exact .inr rfl
      · intro h
        obtain h | h := h
        · cases h
        · exact some_inj.mp h

def filled (c : Char) : Allocator := ⟨fun _ n => replicate n c, fun _ _ => length_replicate⟩

def unsetStruct : JsonStruct where
  buffer := .null
  bufStat := replicate zbxJsonStatBufLen 'x'
  bufferAllocated := 0
  bufferOffset := 0
  bufferSize := 0
  status := .empty
  level := 0

def oneStruct : Heap where
  structs j := if j = 0 then some unsetStruct else none
  blocks _ := none
  next := 0

theorem oneStruct_init (al : Allocator) : ∃ z h, Reached al 0 h ∧ Holding h 0 z '\x00' ∧ Formed z ∧
    h.structs 1 = none := by
  have hx : oneStruct.structs 0 = some unsetStruct := rfl
  have hstat : unsetStruct.bufStat.length = zbxJsonStatBufLen := length_replicate
  obtain ⟨hnone, -⟩ | ⟨z, h, hz, hexecute, hholding, hothers⟩ :=
    (Start.init 0 true).execute_holding hx hstat al
  · cases hnone
  · exact ⟨z, h, .start (.init 0 true) hx hstat trivial hexecute, hholding,
      Start.apply_formed (s := .init 0 true) trivial hz, hothers 1 Nat.one_ne_zero⟩

end Zabbix.Json
