import ToolEvent.AnalysisRun
import ToolEvent.Library.Brackets
import ToolEvent.Library.KeyedTable
import ToolEvent.Library.LatestMatch
import ToolEvent.Library.LinkedStacks
import ToolEvent.SynchronizationReports

/-!
# The replay of the calls

The trace pass reads the calls of every context as a word of brackets. The table of its contexts
and the stack that they share stand for one reader a context.
-/

namespace ToolEvent.ModelAnalysis

open Fallible World RunModel Brackets

/-- The reader of the calls of one context. -/
structure ContextReplay where
  pid : ℤ
  context : ℕ
  calls : Tally Node := {}

def ContextReplay.key (row : ContextReplay) : ℤ × ℕ := (row.pid, row.context)

def ContextReplay.fresh (key : ℤ × ℕ) : ContextReplay := { pid := key.1, context := key.2 }

def ContextReplay.withCalls (f : Tally Node → Tally Node) (row : ContextReplay) : ContextReplay :=
  { row with calls := f row.calls }

/-- A FORK record, as the pass tests for it. -/
def isForkRecord (node : Node) : Bool := node.domain = .resource ∧ node.recordKind = .fork

def isCallRecord (node : Node) : Bool := node.domain = .call

def opensCall (node : Node) : Bool := node.callKind = .enter

def leavesCall (enter exit : Node) : Bool := !identityMismatch enter exit

def contextKey (node : Node) : ℤ × ℕ := (node.pid, node.contextId)

def childKey (node : Node) : ℤ × ℕ := (node.childPid, node.contextId)

/-- The contexts that the pass asks for when it comes to a node. -/
def askedKeys (node : Node) : List (ℤ × ℕ) :=
  if isForkRecord node then [contextKey node, childKey node]
  else if isCallRecord node then [contextKey node] else []

def replayOf (rows : List ContextReplay) (key : ℤ × ℕ) : ContextReplay :=
  KeyedTable.rowOf ContextReplay.key ContextReplay.fresh key rows

/-- A context is asked for: a reader is added when there is none. -/
def ask (key : ℤ × ℕ) (rows : List ContextReplay) : List ContextReplay :=
  KeyedTable.update ContextReplay.key ContextReplay.fresh key id rows

def changeCalls (key : ℤ × ℕ) (f : Tally Node → Tally Node) (rows : List ContextReplay) : List ContextReplay :=
  KeyedTable.update ContextReplay.key ContextReplay.fresh key (ContextReplay.withCalls f) rows

/-- The open calls that a child takes over: those of the parent, without the call that forks. -/
def forkedCalls (node : Node) : List Node → List Node
  | [] => []
  | active :: rest => if active.callName = node.functionName then rest else active :: rest

/-- A fork sets the open calls of the child. -/
def forkEffect (node : Node) (rows : List ContextReplay) : List ContextReplay :=
  let asked := ask (childKey node) (ask (contextKey node) rows)
  changeCalls (childKey node)
    (fun calls => { calls with pending := forkedCalls node (replayOf asked (contextKey node)).calls.pending }) asked

def traceEffect (node : Node) (rows : List ContextReplay) : List ContextReplay :=
  if isForkRecord node then forkEffect node rows
  else if isCallRecord node then
    changeCalls (contextKey node) (fun calls => Brackets.step opensCall leavesCall calls node) rows
  else rows

def traceRows (nodes : List Node) : List ContextReplay := nodes.foldl (fun rows node => traceEffect node rows) []

/-- The finding that `addTraceFinding` adds. -/
def traceFinding (identifier message : String) (node : Node) : Finding :=
  newFinding (.ofString identifier) .trace (.ofString message) (some node) none none (some node.callName)

def unmatchedFinding : Node → Finding := traceFinding "P101-TRACE-001" "call exit has no matching active call"

def mismatchedFinding : Node → Finding := traceFinding "P101-TRACE-002" "call exit does not match the active call"

def openFinding : Node → Finding :=
  traceFinding "P101-TRACE-003" "call remained open at the end of the event stream"

def exitFindings (calls : Tally Node) (node : Node) : List Finding :=
  match calls.pending with
  | [] => [unmatchedFinding node]
  | active :: _ => if identityMismatch active node then [mismatchedFinding node] else []

def nodeFindings (node : Node) (rows : List ContextReplay) : List Finding :=
  if isForkRecord node then []
  else if isCallRecord node ∧ ¬ opensCall node then exitFindings (replayOf rows (contextKey node)).calls node
  else []

def lineDepth (node : Node) (calls : Tally Node) : ℕ :=
  if opensCall node then calls.pending.length else calls.pending.length - 1

def nodeLine (node : Node) (rows : List ContextReplay) : Text :=
  if isForkRecord node then .empty
  else if isCallRecord node then
    traceLine node (lineDepth node (replayOf rows (contextKey node)).calls) (opensCall node)
  else .empty

/-- The texts of the node fit the buffers that the pass copies them to. -/
def NodeFits (node : Node) (rows : List ContextReplay) : Prop :=
  (nodeLine node rows).length < traceLineSize ∧
    (nodeFindings node rows ≠ [] → node.callName.length < evidenceTextSize)

section Rows

variable {rows : List ContextReplay} {key : ℤ × ℕ} {index : ℕ}

@[simp] theorem key_fresh (key : ℤ × ℕ) : (ContextReplay.fresh key).key = key := rfl

@[simp] theorem key_withCalls (f : Tally Node → Tally Node) (row : ContextReplay) :
    (row.withCalls f).key = row.key := rfl

def IsRowOf (rows : List ContextReplay) (key : ℤ × ℕ) (index : ℕ) : Prop :=
  rows.findIdx? (fun row => row.key = key) = some index

theorem IsRowOf.getElem? (h : IsRowOf rows key index) : rows[index]? = some (replayOf rows key) := by
  have hrow := (KeyedTable.update_of_findIdx?_eq_some ContextReplay.fresh id h).2 (ContextReplay.fresh key)
  have hlt := (List.findIdx?_eq_some_iff_findIdx_eq.mp h).1
  rw [List.getD_eq_getElem?_getD, List.getElem?_eq_getElem hlt, Option.getD_some] at hrow
  rw [List.getElem?_eq_getElem hlt, hrow]
  rfl

theorem IsRowOf.changeCalls_eq (h : IsRowOf rows key index) (f : Tally Node → Tally Node) :
    changeCalls key f rows = rows.modify index (ContextReplay.withCalls f) :=
  (KeyedTable.update_of_findIdx?_eq_some ContextReplay.fresh _ h).1

theorem IsRowOf.ask_eq (h : IsRowOf rows key index) : ask key rows = rows := by
  have hmodify := (KeyedTable.update_of_findIdx?_eq_some ContextReplay.fresh id h).1
  rw [ask, hmodify]
  exact List.modify_id index rows

theorem ask_eq_append (h : rows.findIdx? (fun row => row.key = key) = none) :
    ask key rows = rows ++ [.fresh key] := (KeyedTable.update_of_findIdx?_eq_none ContextReplay.fresh id h).1

/-- Asking for a context keeps the rows where they are. -/
theorem IsRowOf.ask (h : IsRowOf rows key index) (other : ℤ × ℕ) : IsRowOf (ask other rows) key index := by
  cases hother : rows.findIdx? (fun row => row.key = other) with
  | none =>
    rw [ask_eq_append hother, IsRowOf, List.findIdx?_append, h]
    rfl
  | some i =>
    rw [IsRowOf.ask_eq hother]
    exact h

theorem replayOf_ask (rows : List ContextReplay) (key other : ℤ × ℕ) :
    replayOf (ask other rows) key = replayOf rows key := by
  rcases eq_or_ne key other with rfl | hne
  · rw [replayOf, KeyedTable.rowOf, ask,
      KeyedTable.find?_update_self (f := id) (key_fresh key) fun _ => rfl]
    rfl
  · rw [replayOf, KeyedTable.rowOf, ask,
      KeyedTable.find?_update_of_ne (f := id) (key_fresh other) (fun _ => rfl) hne]
    rfl

theorem changeCalls_ask (f : Tally Node → Tally Node) (rows : List ContextReplay) (key : ℤ × ℕ) :
    changeCalls key f (ask key rows) = changeCalls key f rows := by
  cases hkey : rows.findIdx? (fun row => row.key = key) with
  | some i => rw [IsRowOf.ask_eq hkey]
  | none =>
    have hasked : IsRowOf (ask key rows) key rows.length := by
      rw [ask_eq_append hkey, IsRowOf, List.findIdx?_append, hkey]
      simp
    have hfresh := (KeyedTable.update_of_findIdx?_eq_none ContextReplay.fresh (ContextReplay.withCalls f) hkey).1
    rw [hasked.changeCalls_eq, ask_eq_append hkey, changeCalls, hfresh, List.modify_eq_set_getElem?]
    simp

end Rows

end ToolEvent.ModelAnalysis
