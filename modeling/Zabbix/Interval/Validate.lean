import Zabbix.Interval.Parse

/-!
# Validation and use of update intervals

`zbx_validate_interval` looks through the string of an update interval when it is saved,
`zbx_interval_preproc` splits it when it is used.
-/

namespace Zabbix.Interval

open Zabbix.Expr

def zbxIsMacroChar (c : Char) : Bool :=
  ('A' ≤ c && c ≤ 'Z') || c = '.' || c = '_' || isdigit c

def quotedContext : ℕ → List Char → Option ℕ
  | _, [] => none
  | i, '"' :: _ => some i
  | i, '\\' :: '"' :: cs => quotedContext (i + 2) cs
  | i, _ :: cs => quotedContext (i + 1) cs

def zbxUserMacroParse (text : List Char) : Option ℕ :=
  let i := 2 + ((text.drop 2).takeWhile zbxIsMacroChar).length
  if i = 2 then none
  else if charAt (text.drop i) = '}' then some i
  else if charAt (text.drop i) ≠ ':' then none
  else
    let i := i + 1 + ((text.drop (i + 1)).takeWhile (· = ' ')).length
    let i :=
      if charAt (text.drop i) = '"' then
        (quotedContext (i + 1) (text.drop (i + 1))).map fun i =>
          i + 1 + ((text.drop (i + 1)).takeWhile (· = ' ')).length
      else
        let n := ((text.drop i).takeWhile (· ≠ '}')).length
        if text.drop (i + n) = [] then none else some (i + n)
    i.bind fun i => if charAt (text.drop i) ≠ '}' then none else some i

def parseUserMacro (text : List Char) : Option ℕ :=
  if charAt text ≠ '{' ∨ charAt text.tail ≠ '$' then none
  else (zbxUserMacroParse text).map (· + 1)

def strchr (text : List Char) (c : Char) : Option ℕ := text.idxOf? c

def lengthTo (text : List Char) (delim : Option ℕ) : ℕ := delim.getD text.length

structure CustomInterval where
  flexible : List FlexibleInterval
  scheduling : List SchedulerInterval
  deriving DecidableEq

def preprocError (intervalType : String) (text : List Char) (delim : Option ℕ) : List Char :=
  "Invalid ".toList ++ intervalType.toList ++ " interval \"".toList ++
    text.take (lengthTo text delim) ++ "\".".toList

def preprocFinish (simple : ℕ) (custom : CustomInterval) (text : List Char) (delim : Option ℕ) :
    Except (List Char) (ℕ × CustomInterval) :=
  if (custom.flexible = [] ∧ custom.scheduling = [] ∧ simple = 0) ∨ secPerDay < simple then
    .error (preprocError "update" text delim)
  else .ok (simple, custom)

/-- The loop of `zbx_interval_preproc`; every round takes a semicolon. -/
def preprocLoop (simple : ℕ) : ℕ → CustomInterval → List Char → Option ℕ →
    Except (List Char) (ℕ × CustomInterval)
  | 0, custom, text, delim => preprocFinish simple custom text delim
  | fuel + 1, custom, text, delim =>
    match delim with
    | none => preprocFinish simple custom text none
    | some i =>
      let text := text.drop (i + 1)
      let delim := strchr text ';'
      if isdigit (charAt text) then
        match flexibleIntervalParse text (lengthTo text delim) with
        | none => .error (preprocError "flexible" text delim)
        | some interval =>
          if simple = 0 ∧ interval.delay = 0 then .error (preprocError "flexible" text delim)
          else
            preprocLoop simple fuel { custom with flexible := interval :: custom.flexible } text
              delim
      else
        match schedulerIntervalParse text (lengthTo text delim) with
        | none => .error (preprocError "scheduling" text delim)
        | some interval =>
          preprocLoop simple fuel { custom with scheduling := interval :: custom.scheduling } text
            delim

def zbxIntervalPreproc (text : List Char) : Except (List Char) (ℕ × CustomInterval) :=
  let delim := strchr text ';'
  match zbxIsTimeSuffix text (delim.getD zbxLengthUnlimited) with
  | none => .error (preprocError "update" text delim)
  | some simple => preprocLoop simple (text.length + 1) ⟨[], []⟩ text delim

def parseSimpleInterval (text : List Char) (sep : Char) : Option (ℕ × ℕ) :=
  let delim := strchr text sep
  (zbxIsTimeSuffix text (delim.getD zbxLengthUnlimited)).map fun value =>
    (lengthTo text delim, value)

/-- A pointer at a delimiter, which is `NULL` at the end of the string. -/
def delimAt (text : List Char) (len : ℕ) : Option ℕ :=
  if text.drop len = [] then none else some len

def endsInterval (text : List Char) (len : ℕ) : Bool :=
  text.drop len = [] || charAt (text.drop len) = ';'

def validateError (what : String) (text : List Char) (len : ℕ) : List Char :=
  "Invalid ".toList ++ what.toList ++ " \"".toList ++ text.take len ++ "\".".toList

/-- A flexible or scheduling interval of `zbx_validate_interval`, which is the rest of the text and
its delimiter. -/
def validateCustom (simple : ℕ) (text : List Char) : Except (List Char) (List Char × Option ℕ) :=
  let macroLen := parseUserMacro text
  let first := (macroLen.map fun len => (len, 1)).or (parseSimpleInterval text '/')
  match first.filter (fun (len, _) => charAt (text.drop len) = '/') with
  | some (len, interval) =>
    if interval = 0 ∧ simple = 0 then .error (validateError "flexible interval" text len)
    else
      let text := text.drop (len + 1)
      match (parseUserMacro text).filter (endsInterval text) with
      | some len => .ok (text, delimAt text len)
      | none =>
        let delim := strchr text ';'
        match timePeriodParse text (lengthTo text delim) with
        | some _ => .ok (text, delim)
        | none => .error (validateError "flexible period" text (lengthTo text delim))
  | none =>
    match macroLen.filter (endsInterval text) with
    | some len => .ok (text, delimAt text len)
    | none =>
      let delim := strchr text ';'
      match schedulerIntervalParse text (lengthTo text delim) with
      | some _ => .ok (text, delim)
      | none => .error (validateError "custom interval" text (lengthTo text delim))

def validateFinish (simple : ℕ) (custom : Bool) : Except (List Char) ℕ :=
  if (custom = false ∧ simple = 0) ∨ secPerDay < simple then
    .error ("Invalid update interval \"".toList ++ (Nat.repr simple).toList ++ "\"".toList)
  else .ok simple

/-- The loop of `zbx_validate_interval`; every round takes a semicolon. -/
def validateLoop (simple : ℕ) : ℕ → Bool → List Char → Option ℕ → Except (List Char) ℕ
  | 0, custom, _, _ => validateFinish simple custom
  | fuel + 1, custom, text, delim =>
    match delim with
    | none => validateFinish simple custom
    | some i =>
      match validateCustom simple (text.drop (i + 1)) with
      | .error error => .error error
      | .ok (text, delim) => validateLoop simple fuel true text delim

def zbxValidateInterval (text : List Char) : Except (List Char) ℕ :=
  match (parseUserMacro text).filter (endsInterval text) with
  | some len => validateLoop 1 (text.length + 1) false text (delimAt text len)
  | none =>
    match parseSimpleInterval text ';' with
    | some (len, simple) => validateLoop simple (text.length + 1) false text (delimAt text len)
    | none => .error (validateError "update interval" text (lengthTo text (strchr text ';')))

end Zabbix.Interval
