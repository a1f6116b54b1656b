import TemplateCode.Proofs.Frames

/-!
# The record of a run

What happens in a run cannot all be seen in the code that it writes. An `Audit` is code under construction that
takes down the nodes it is made for, every number that is counted, and every run that has ended, those for
branches included.

* `Audited.emit` does what `emit` does and keeps the record.
* `Audited.follows_emit`: it does nothing else.
* `Node.audit`: the record of the run for a whole tree.
-/

namespace TemplateCode

/-- A node that is handed to the operations for its kind, with its position. -/
abbrev Dispatch := Position × Node

/-- A run of its own: the tree that it is for, and where it starts and ends to count. -/
structure Run where
  root : Node
  seed : UInt64
  next : UInt64

/-- Code under construction, with a record of how it came about. -/
structure Audit where
  code : Code Position
  /-- The nodes that were dispatched, in this run and in those for branches. -/
  dispatched : List Dispatch := []
  /-- The counter at each increment, in this run and in those for branches. -/
  increments : List UInt64 := []
  /-- The runs that have ended. -/
  runs : List Run := []

namespace Audit

/-- Does something to the code that counts no name. -/
def update (f : Code Position → Code Position) (audit : Audit) : Audit :=
  { audit with code := f audit.code }

/-- Goes on to the next synthetic name, and records this. -/
def count (audit : Audit) : Audit :=
  { audit with code := audit.code.count, increments := audit.increments ++ [audit.code.counter] }

def declare (initializer : String) (audit : Audit) : Audit :=
  if initializer = "" then
    audit
  else
    audit.count.update (Code.write .declaration
      ("let " ++ audit.code.nextName "var" ++ " = " ++ initializer ++ ";"))

def openScope (params : List String) (owner : Option Position) (audit : Audit) : Audit :=
  audit.count.update (Code.openWith .scope
    ("function " ++ audit.code.nextName "fn" ++ "(" ++ ", ".intercalate params ++ ")") owner)

def apply (audit : Audit) : Edit Position → Audit
  | .declare initializer => audit.declare initializer
  | .openScope params owner => audit.openScope params owner
  | edit => audit.update fun code => code.apply edit

/-- Records that a node is dispatched. -/
def enter (audit : Audit) (dispatch : Dispatch) : Audit :=
  { audit with dispatched := audit.dispatched ++ [dispatch] }

@[simp] theorem code_apply (audit : Audit) (edit : Edit Position) :
    (audit.apply edit).code = audit.code.apply edit := by
  cases edit with
  | declare initializer =>
    unfold apply declare Code.apply Code.declare
    dsimp only
    split <;> rfl
  | _ => rfl

@[simp] theorem dispatched_apply (audit : Audit) (edit : Edit Position) :
    (audit.apply edit).dispatched = audit.dispatched := by
  cases edit with
  | declare initializer =>
    unfold apply declare
    dsimp only
    split <;> rfl
  | _ => rfl

/-- Steps that do to the code what other steps do to code without a record. -/
theorem code_foldl {α : Type} (step : Audit → α → Audit) (step' : Code Position → α → Code Position)
    {items : List α} (h : ∀ item ∈ items, ∀ audit, (step audit item).code = step' audit.code item)
    (audit : Audit) : (items.foldl step audit).code = items.foldl step' audit.code := by
  induction items generalizing audit with
  | nil => rfl
  | cons item items ih =>
    obtain ⟨hitem, hitems⟩ := List.forall_mem_cons.1 h
    rw [List.foldl_cons, List.foldl_cons, ih hitems, hitem]

end Audit

/-- A tree and its effect on code under construction with a record. -/
structure Audited where
  root : Node
  effect : Option (Parent Position) → Audit → Audit

namespace Audited

/-- The code of a run of its own, which counts on from the code that is there. The run is recorded when it
ends. -/
def run (audited : Audited) (audit : Audit) : Audit :=
  let ended := audited.effect none { audit with code := Code.start audit.code.counter }
  { ended with runs := ended.runs ++ [⟨audited.root, audit.code.counter, ended.code.counter⟩] }

/-- Generates the code of a branch apart and splices it in. -/
def spliceInto (audited : Audited) (audit : Audit) : Audit :=
  (audited.run audit).update fun written => audit.code.splice written.fragment

end Audited

/-- Carries out a step of an await block and keeps the record. -/
def AwaitStep.audit (audit : Audit) : AwaitStep Position Audited → Audit
  | edit operation => audit.apply operation
  | splice none => audit
  | splice (some audited) => audited.spliceInto audit

namespace Audited

/-- The effect of a node, given the effects of the nodes below. -/
def emitNode (read : Reading) (node : Node) (below : List (Slot × List Audited)) (here : Position)
    (parent : Option (Parent Position)) (audit : Audit) : Audit :=
  let entered := audit.enter (here, node)
  let written :=
    if node.kind = .awaitBlock then
      (awaitSteps read node below).foldl AwaitStep.audit entered
    else
      (walked below).foldl (fun audit visit => visit.2.effect (some ⟨node.kind, here⟩) audit)
        ((opening read node here (parent.map Parent.kind) (isChained parent audit.code)).foldl Audit.apply
          entered)
  written.apply (.close (some here))

/-- The effect of a tree at a position, with a record. Blocks are owned by positions. -/
def emit (read : Reading) (root : Node) : Position → Audited :=
  root.fold fun node below here => ⟨node, emitNode read node (locate here below) here⟩

theorem emit_eq (read : Reading) (node : Node) (here : Position) :
    emit read node here =
      ⟨node, emitNode read node (mapBelow (fun part => emit read part.2 part.1) (node.parts here)) here⟩ := by
  unfold emit
  rw [Node.fold_eq, Node.locate_fields]

theorem effect_walk (read : Reading) {node : Node} (here : Position) (h : node.kind ≠ .awaitBlock)
    (parent : Option (Parent Position)) (audit : Audit) :
    (emit read node here).effect parent audit =
      ((walked (node.parts here)).foldl
        (fun audit visit => (emit read visit.2.2 visit.2.1).effect (some ⟨node.kind, here⟩) audit)
        ((opening read node here (parent.map Parent.kind) (isChained parent audit.code)).foldl
          Audit.apply (audit.enter (here, node)))).apply (.close (some here)) := by
  rw [emit_eq]
  dsimp only [emitNode]
  rw [if_neg h, walked_mapBelow, List.foldl_map]

theorem effect_await (read : Reading) {node : Node} (here : Position) (h : node.kind = .awaitBlock)
    (parent : Option (Parent Position)) (audit : Audit) :
    (emit read node here).effect parent audit =
      ((awaitSteps read node (node.parts here)).foldl
        (fun audit step => (step.map fun part => emit read part.2 part.1).audit audit)
        (audit.enter (here, node))).apply (.close (some here)) := by
  rw [emit_eq]
  dsimp only [emitNode]
  rw [if_pos h, awaitSteps_mapBelow, List.foldl_map]

/-! ## The record changes nothing -/

/-- A tree with a record has the effect of an emission. -/
def Follows (audited : Audited) (emission : Emission Position) : Prop :=
  ∀ parent audit, (audited.effect parent audit).code = emission parent audit.code

theorem Follows.code_run {audited : Audited} {emission : Emission Position} (h : audited.Follows emission)
    (audit : Audit) : (audited.run audit).code = emission none (Code.start audit.code.counter) :=
  h none _

theorem Follows.code_spliceInto {audited : Audited} {emission : Emission Position}
    (h : audited.Follows emission) (audit : Audit) :
    (audited.spliceInto audit).code = emission.spliceInto audit.code := by
  rw [spliceInto, Audit.update, h.code_run]
  rfl

/-- **Keeping a record changes nothing.** -/
theorem follows_emit (read : Reading) (node : Node) (here : Position) :
    (emit read node here).Follows (TemplateCode.emit read id node here) := by
  induction here, node using Node.located_induction with
  | step here node ih =>
    intro parent audit
    by_cases hkind : node.kind = .awaitBlock
    · rw [effect_await read here hkind, emit_await read id here hkind, awaitBlock_mapBelow, Audit.code_apply]
      refine congrArg (Code.closeOwned here) (Audit.code_foldl _ _ (fun step hstep audit => ?_) _)
      rcases step with operation | (_ | part)
      · exact audit.code_apply operation
      · rfl
      · exact (ih part (mem_of_mem_awaitSteps hstep)).code_spliceInto audit
    · rw [effect_walk read here hkind, emit_walk read id here hkind, Audit.code_apply]
      have hopening : ∀ edits : List (Edit Position),
          (edits.foldl Audit.apply (audit.enter (here, node))).code = audit.code.applyAll edits :=
        fun edits => Audit.code_foldl _ _ (fun edit _ audit => audit.code_apply edit) _
      refine congrArg (Code.closeOwned here) ?_
      rw [Audit.code_foldl _ (fun code visit =>
        TemplateCode.emit read id visit.2.2 visit.2.1 (some ⟨node.kind, here⟩) code) ?_, hopening]
      · rfl
      · exact fun visit hvisit audit => ih visit.2 (snd_mem_of_mem_walked hvisit) _ audit

end Audited

/-! ## The record of a whole run -/

/-- The code for a tree over a source, with names counted from `seed`, and the record of the run. -/
def Node.audit (source : String) (root : Node) (seed : UInt64) : Audit :=
  (Audited.emit (Span.readIn source) root []).run { code := Code.start seed }

theorem Node.fragment_audit (source : String) (root : Node) (seed : UInt64) :
    (root.audit source seed).code.fragment = root.fragment source seed :=
  congrArg Code.fragment (Audited.follows_emit (Span.readIn source) root [] none { code := Code.start seed })

end TemplateCode
