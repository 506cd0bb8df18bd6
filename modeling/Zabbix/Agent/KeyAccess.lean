import Zabbix.Agent.Itemutil
import Zabbix.Agent.Wildcard

/-!
# Access rules for item keys

`internal/agent/keyaccess`.
-/

namespace Zabbix.KeyAccess

open Zabbix.Itemutil Zabbix.Wildcard

inductive RuleType where
  | allow
  | deny
  deriving DecidableEq

structure Record where
  pattern : List Char
  permission : RuleType
  line : Nat
  deriving DecidableEq

structure Rule where
  pattern : List Char
  permission : RuleType
  key : List Char
  params : List (List Char)
  deriving DecidableEq

/-- The number `n` of `parse`: its loop goes over all parameters. -/
def cutParams (params : List (List Char)) : List (List Char) :=
  let n := params.count ['*']
  if 1 < n then params.take (params.length - n + 1) else params

def parse (rec : Record) : Except String Rule :=
  match parseWildcardKey rec.pattern with
  | .error err => .error err
  | .ok (key, params) =>
    .ok { permission := rec.permission, pattern := rec.pattern, key := minimize key,
          params := cutParams (params.map minimize) }

def findRule : List Rule → Rule → Option (Rule × Nat)
  | [], _ => none
  | r :: rules, proto =>
    if proto.key = r.key ∧ proto.params = r.params then some (r, 0)
    else (findRule rules proto).map fun (r, j) => (r, j + 1)

def addRule (rules : List Rule) (rec : Record) : Except String (List Rule) :=
  match parse rec with
  | .error err => .error err
  | .ok rule => if (findRule rules rule).isSome then .ok rules else .ok (rules ++ [rule])

/-- The loop of `LoadRules` over the records. -/
def addRules : List Rule → List Record → Except String (List Rule)
  | rules, [] => .ok rules
  | rules, r :: records =>
    match addRule rules r with
    | .error err => .error ("\"" ++ String.ofList r.pattern ++ "\" " ++ err)
    | .ok rules => addRules rules records

def fullMatch (r : Rule) : Bool := r.params = [] && r.key = ['*']

def systemRun : List Char := ['s', 'y', 's', 't', 'e', 'm', '.', 'r', 'u', 'n']

def sysrunRecord : Record :=
  { pattern := systemRun ++ ['[', '*', ']'], permission := .deny, line := 0 }

/-- The loop that removes the rules after one that matches everything; `math.MaxInt32` as the
index of the rule for `system.run[*]` is `none`. -/
def removeUnreachable (rules : List Rule) (sysrunIndex : Option Nat) : List Rule × Option Nat :=
  match rules.findIdx? fullMatch with
  | none => (rules, sysrunIndex)
  | some i => (rules.take (i + 1), some (min i (sysrunIndex.getD i)))

def removeTrailing : List Rule → List Rule
  | [] => []
  | r :: rules =>
    if r.permission ≠ .allow then r :: rules
    else if r.key ≠ systemRun then removeTrailing rules
    else r :: removeTrailing rules

def sortRecords (records : List Record) : List Record :=
  records.insertionSort fun a b => a.line ≤ b.line

/-- The values of the `AllowKey` and `DenyKey` nodes with their lines. -/
def loadRules (allowRecords denyRecords : List (List Char × Nat)) : Except String (List Rule) :=
  let records := allowRecords.map (fun v => { pattern := v.1, permission := .allow, line := v.2 }) ++
    denyRecords.map fun v => { pattern := v.1, permission := .deny, line := v.2 }
  match addRules [] (sortRecords records) with
  | .error err => .error err
  | .ok rules =>
    match parse sysrunRecord with
    | .error err => .error err
    | .ok sysrunRule =>
      let found := findRule rules sysrunRule
      let rulesNum := if found.isSome then rules.length - 1 else rules.length
      if rulesNum ≠ 0 then
        let (rules, sysrunIndex) := removeUnreachable rules (found.map Prod.snd)
        let rules := (removeTrailing rules.reverse).reverse
        if rules = [] then
          .error ("Item key access rules are configured to match all keys," ++
            " indicating possible configuration problem. " ++
            " Please remove the rules if that was the purpose.")
        else .ok (if sysrunIndex = none then rules ++ [sysrunRule] else rules)
      else .ok (if found = none then rules ++ [sysrunRule] else rules)

/-- The loop of `CheckRules` over the parameters of a rule. -/
def matchParams : List (List Char) → List (List Char) → Bool
  | [], _ => false
  | [p], params =>
    if p = ['*'] then true
    else
      match params with
      | [] => false
      | v :: _ => wildcardMatch v p
  | _ :: _ :: _, [] => false
  | p :: q :: rest, v :: params => if wildcardMatch v p then matchParams (q :: rest) params else false

/-- The body of the loop of `CheckRules`: whether it returns the permission of the rule. -/
def matchRule (r : Rule) (key : List Char) (params : List (List Char)) : Bool :=
  let emptyParams := params = [[]]
  if r.key = ['*'] ∧ r.params = [] then true
  else if r.params ≠ [] ∧ r.params.getLast? = some ['*'] ∧ r.params.length = 1 ∧ params = [] then
    false
  else if r.params ≠ [] ∧ r.params.getLast? ≠ some ['*'] ∧ params.length < r.params.length then
    false
  else if r.params ≠ [] ∧ r.params.getLast? ≠ some ['*'] ∧ params.length > r.params.length then
    false
  else if ¬ wildcardMatch key r.key then false
  else if r.params = [] ∧ emptyParams then false
  else if r.params = [] ∧ params = [] then true
  else matchParams r.params params

def checkRules (rules : List Rule) (key : List Char) (params : List (List Char)) : Bool :=
  match rules with
  | [] => true
  | r :: rules =>
    if matchRule r key params then r.permission = .allow else checkRules rules key params

end Zabbix.KeyAccess
