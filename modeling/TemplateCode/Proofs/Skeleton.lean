import TemplateCode.Proofs.Walking
import TemplateCode.Tree.Listing

/-!
# What a listing shows

A listing shows the tag and the slot of each node that is walked, and how the nodes are nested. Nothing else
of a tree is in it, and all of this can be read back from the text, if tags and keys do not break the lines
they are in.

* `Skeleton`: what a listing shows of a tree, `Skeleton.marks_injective`: marks that are nested determine it.
* `KeepsDepth`: the depth at which each event is listed, `Node.keepsDepth_walkAt`: it is that of its node.
* `Event.mark_eq_of_line_eq`: what a line determines, `linesOf_joinLines`: the lines of a text that was joined.
* `trace_skeleton`: a listing and the skeleton determine each other.
-/

namespace TemplateCode

/-- What a listing shows of a tree: the tag of each node that is walked, and the key of the slot it is in. -/
inductive Skeleton where
  | node (tag key : String) (below : List Skeleton)

/-- What a listing shows of an event. -/
abbrev Mark := Phase × String × String

def Event.mark (event : Event) : Mark :=
  (event.phase, event.node.kind.tag, event.slotKey)

namespace Skeleton

mutual

/-- The marks of a walk through a skeleton. -/
def marks : Skeleton → List Mark
  | node tag key below => (.enter, tag, key) :: (marksAll below ++ [(.leave, tag, key)])

def marksAll : List Skeleton → List Mark
  | [] => []
  | skeleton :: skeletons => marks skeleton ++ marksAll skeletons

end

theorem marksAll_eq (skeletons : List Skeleton) : marksAll skeletons = skeletons.flatMap marks := by
  induction skeletons with
  | nil => simp [marksAll]
  | cons skeleton skeletons ih => simp [marksAll, ih]

/-- A property of lists of skeletons that passes from what is below a node to the node holds of all. -/
theorem induction {P : List Skeleton → Prop} (nil : P [])
    (cons : ∀ tag key below rest, P below → P rest → P (.node tag key below :: rest)) :
    ∀ skeletons, P skeletons := by
  refine @Skeleton.rec_1 (fun skeleton => ∀ rest, P rest → P (skeleton :: rest)) P ?_ ?_ ?_
  · exact fun tag key below ih rest => cons tag key below rest ih
  · exact nil
  · exact fun skeleton skeletons ihHead ihTail => ihHead skeletons ihTail

/-- **Marks determine the skeletons they come from**, and where these end, if the next mark does not enter a
node. -/
theorem marksAll_append_inj {skeletons skeletons' : List Skeleton} {rest rest' : List Mark}
    (hrest : ∀ mark ∈ rest.head?, mark.1 = .leave) (hrest' : ∀ mark ∈ rest'.head?, mark.1 = .leave)
    (h : marksAll skeletons ++ rest = marksAll skeletons' ++ rest') :
    skeletons = skeletons' ∧ rest = rest' := by
  induction skeletons using Skeleton.induction generalizing skeletons' rest rest' with
  | nil =>
    cases skeletons' with
    | nil => exact ⟨rfl, h⟩
    | cons skeleton skeletons' =>
      obtain ⟨tag, key, below⟩ := skeleton
      simp only [marksAll, marks, List.nil_append, List.cons_append] at h
      rw [h] at hrest
      cases hrest _ rfl
  | cons tag key below more ihBelow ih =>
    cases skeletons' with
    | nil =>
      simp only [marksAll, marks, List.nil_append, List.cons_append] at h
      rw [← h] at hrest'
      cases hrest' _ rfl
    | cons skeleton skeletons' =>
      obtain ⟨tag', key', below'⟩ := skeleton
      simp only [marksAll, marks, List.cons_append, List.append_assoc, List.nil_append] at h
      -- what is below a node ends at the mark that leaves it
      obtain ⟨hmark, hinner⟩ := List.cons.inj h
      obtain ⟨rfl, houter⟩ := ihBelow (by simp) (by simp) hinner
      obtain ⟨rfl, hafter⟩ := ih hrest hrest' (List.cons.inj houter).2
      cases hmark
      exact ⟨rfl, hafter⟩

theorem marks_injective : Function.Injective marks := by
  intro skeleton skeleton' h
  have hall : marksAll [skeleton] ++ [] = marksAll [skeleton'] ++ [] := by simp [marksAll, h]
  obtain ⟨hsame, -⟩ := marksAll_append_inj (by simp) (by simp) hall
  exact (List.cons.inj hsame).1

end Skeleton

/-- What is walked is all but what is in expression and context slots. -/
theorem map_walked {α β : Type} (f : Slot → α → β) (below : List (Slot × List α)) :
    (walked below).map (fun visit => f visit.1 visit.2) =
      below.flatMap fun field =>
        if field.1 = .expression ∨ field.1 = .context then [] else field.2.map (f field.1) := by
  unfold walked
  simp only [← Slot.isFragment_iff]
  induction below with
  | nil => rfl
  | cons field below ih =>
    rw [List.flatMap_cons, ← ih, List.filter_cons]
    cases hslot : field.1.isFragment <;> simp [Function.comp_def]

namespace Node

/-- The skeleton of a tree that is in a slot with the given key. -/
def skeletonIn (root : Node) : String → Skeleton :=
  root.fold fun node below key =>
    .node node.kind.tag key (below.flatMap fun field =>
      if field.1 = .expression ∨ field.1 = .context then []
      else field.2.map fun skeleton => skeleton field.1.key)

/-- The skeleton of a tree. Its root, which is in no slot, has the same key in all trees. -/
def skeleton (root : Node) : Skeleton :=
  root.skeletonIn "root"

theorem skeletonIn_eq (node : Node) (here : Position) (key : String) :
    node.skeletonIn key = .node node.kind.tag key
      ((walked (node.parts here)).map fun visit => visit.2.2.skeletonIn visit.1.key) := by
  unfold skeletonIn
  rw [fold_eq, node.map_fields here, ← map_walked fun (slot : Slot) (skeleton : String → Skeleton) =>
    skeleton slot.key, walked_mapBelow, List.map_map]
  rfl

/-- **The marks of a walk are those of the skeleton.** -/
theorem map_mark_walkAt (node : Node) (here : Position) (place : Option Place) :
    (node.walkAt (fun _ => false) here place).map Event.mark =
      (node.skeletonIn (Event.slotKey ⟨.enter, node, place, here⟩)).marks := by
  induction here, node using located_induction generalizing place with
  | step here node ih =>
    rw [walkAt_eq, node.skeletonIn_eq here, Skeleton.marks, Skeleton.marksAll_eq, List.flatMap_map]
    simp only [Bool.false_eq_true, if_false, List.map_cons, List.map_append, List.map_nil, List.map_flatMap,
      List.cons_append]
    have hparts : ((walked (node.parts here)).flatMap fun visit =>
          (visit.2.2.walkAt (fun _ => false) visit.2.1 (some ⟨node, visit.1⟩)).map Event.mark) =
        (walked (node.parts here)).flatMap fun visit => (visit.2.2.skeletonIn visit.1.key).marks :=
      List.flatMap_congr fun visit hvisit => ih visit.2 (snd_mem_of_mem_walked hvisit) _
    rw [hparts]
    rfl

end Node

/-! ## Depth -/

/-- The depth of a listing after an event. -/
def Event.depthAfter (depth : Nat) (event : Event) : Nat :=
  match event.phase with
  | .enter => depth + 1
  | .leave => depth - 1

/-- A listing goes on at the depth that the events before have led to. -/
theorem listEvents_append (depth : Nat) (events more : List Event) :
    listEvents depth (events ++ more) =
      listEvents depth events ++ listEvents (events.foldl Event.depthAfter depth) more := by
  induction events generalizing depth with
  | nil => rfl
  | cons event events ih =>
    rw [List.cons_append, listEvents, listEvents, List.foldl_cons]
    cases hphase : event.phase <;> simp only [ih, Event.depthAfter, hphase, List.cons_append]

/-- The depth of a listing when an event comes: that of the node when it is entered, and one more when it is
left. -/
def Event.depthBefore (event : Event) : Nat :=
  match event.phase with
  | .enter => event.position.length
  | .leave => event.position.length + 1

/-- A listing that starts at a depth has the right depth at every event. -/
def KeepsDepth : Nat → List Event → Prop
  | _, [] => True
  | depth, event :: events => depth = event.depthBefore ∧ KeepsDepth (event.depthAfter depth) events

theorem keepsDepth_append {depth : Nat} {events more : List Event} (h : KeepsDepth depth events)
    (hmore : KeepsDepth (events.foldl Event.depthAfter depth) more) : KeepsDepth depth (events ++ more) := by
  induction events generalizing depth with
  | nil => exact hmore
  | cons event events ih => exact ⟨h.1, ih h.2 hmore⟩

theorem KeepsDepth.foldl_eq {depth : Nat} {before after : List Event} {event : Event}
    (h : KeepsDepth depth (before ++ event :: after)) :
    before.foldl Event.depthAfter depth = event.depthBefore := by
  induction before generalizing depth with
  | nil => exact h.1
  | cons first before ih => exact ih h.2

/-- **The line of an event is at the depth of its node**, whether the node is entered or left. -/
theorem KeepsDepth.listEvents_eq {depth : Nat} {events : List Event} (h : KeepsDepth depth events) :
    listEvents depth events = events.map fun event => event.line event.position.length := by
  induction events generalizing depth with
  | nil => rfl
  | cons event events ih =>
    obtain ⟨hdepth, hevents⟩ := h
    unfold Event.depthAfter at hevents
    unfold Event.depthBefore at hdepth
    rw [listEvents, List.map_cons]
    cases hphase : event.phase with
    | enter =>
      simp only [hphase] at hdepth hevents ⊢
      rw [ih hevents, hdepth]
    | leave =>
      simp only [hphase] at hdepth hevents ⊢
      rw [ih hevents, hdepth, Nat.add_sub_cancel]

/-- Walks through parts that stand at the same depth, one after the other. -/
theorem keepsDepth_flatMap {α : Type} {items : List α} {f : α → List Event} {depth : Nat}
    (h : ∀ item ∈ items, KeepsDepth depth (f item) ∧ (f item).foldl Event.depthAfter depth = depth) :
    KeepsDepth depth (items.flatMap f) ∧ (items.flatMap f).foldl Event.depthAfter depth = depth := by
  induction items with
  | nil => exact ⟨trivial, rfl⟩
  | cons item items ih =>
    obtain ⟨⟨hitem, hdepth⟩, hitems⟩ := List.forall_mem_cons.1 h
    obtain ⟨hkeeps, hafter⟩ := ih hitems
    rw [List.flatMap_cons, List.foldl_append, hdepth]
    exact ⟨keepsDepth_append hitem (hdepth.symm ▸ hkeeps), hafter⟩

/-- **A walk comes back to the depth it starts at**, and has the right depth in between. -/
theorem Node.keepsDepth_walkAt (node : Node) (skips : Kind → Bool) (here : Position) (place : Option Place) :
    KeepsDepth here.length (node.walkAt skips here place) ∧
      (node.walkAt skips here place).foldl Event.depthAfter here.length = here.length := by
  induction here, node using located_induction generalizing place with
  | step here node ih =>
    -- between the two events of a node the depth is one more than its own
    have hinner : KeepsDepth (here.length + 1)
          (if skips node.kind then [] else (walked (node.parts here)).flatMap fun visit =>
            visit.2.2.walkAt skips visit.2.1 (some ⟨node, visit.1⟩)) ∧
        (if skips node.kind then [] else (walked (node.parts here)).flatMap fun visit =>
          visit.2.2.walkAt skips visit.2.1 (some ⟨node, visit.1⟩)).foldl Event.depthAfter (here.length + 1) =
            here.length + 1 := by
      split
      · exact ⟨trivial, rfl⟩
      · refine keepsDepth_flatMap fun visit hvisit => ?_
        obtain ⟨⟨i, j, hposition⟩, -⟩ := mem_held (snd_mem_of_mem_walked hvisit)
        have hpart := ih visit.2 (snd_mem_of_mem_walked hvisit) (some ⟨node, visit.1⟩)
        rwa [hposition, List.length_cons, ← hposition] at hpart
    rw [walkAt_eq]
    refine ⟨⟨rfl, keepsDepth_append hinner.1 ?_⟩, ?_⟩
    · exact ⟨hinner.2, trivial⟩
    · rw [List.cons_append, List.foldl_cons, List.foldl_append]
      exact congrArg (Event.depthAfter · ⟨.leave, node, place, here⟩) hinner.2

/-! ## Lines -/

/-- A text is cut at the first place where a sign stands in one way only. -/
theorem append_cons_inj_of_not_mem {α : Type} {sign : α} {front front' rest rest' : List α} (h : sign ∉ front)
    (h' : sign ∉ front') (heq : front ++ sign :: rest = front' ++ sign :: rest') :
    front = front' ∧ rest = rest' := by
  induction front generalizing front' with
  | nil =>
    cases front' with
    | nil => exact ⟨rfl, (List.cons.inj heq).2⟩
    | cons c front' => exact absurd ((List.cons.inj heq).1 ▸ List.mem_cons_self) h'
  | cons c front ih =>
    cases front' with
    | nil => exact absurd ((List.cons.inj heq).1 ▸ List.mem_cons_self) h
    | cons c' front' =>
      obtain ⟨rfl, htail⟩ := List.cons.inj heq
      obtain ⟨rfl, hrest⟩ := ih (fun hmem => h (List.mem_cons_of_mem c hmem))
        (fun hmem => h' (List.mem_cons_of_mem c hmem)) htail
      exact ⟨rfl, hrest⟩

/-- Blanks before a text that does not begin with one are told from the text. -/
theorem replicate_append_inj {n n' : Nat} {cs cs' : List Char} (h : cs.head? ≠ some ' ')
    (h' : cs'.head? ≠ some ' ') (heq : List.replicate n ' ' ++ cs = List.replicate n' ' ' ++ cs') :
    n = n' ∧ cs = cs' := by
  induction n generalizing n' with
  | zero =>
    cases n' with
    | zero => exact ⟨rfl, heq⟩
    | succ n' =>
      rw [List.replicate_zero, List.nil_append] at heq
      exact absurd (heq ▸ rfl) h
  | succ n ih =>
    cases n' with
    | zero =>
      rw [List.replicate_zero, List.nil_append] at heq
      exact absurd (heq ▸ rfl) h'
    | succ n' =>
      obtain ⟨rfl, hrest⟩ := ih (List.cons.inj heq).2
      exact ⟨rfl, hrest⟩

theorem Event.toList_line (event : Event) (depth : Nat) :
    (event.line depth).toList = List.replicate (4 * depth + 1) ' ' ++
      (event.phase.word.toList ++ ' ' :: (event.node.kind.tag.toList ++ ' ' :: '(' ::
        (event.slotKey.toList ++ [')']))) := by
  simp [line, indentation, indentWidth, List.replicate_succ']

theorem Event.line_eq (event : Event) (depth : Nat) :
    event.line depth = String.ofList (List.replicate (4 * depth + 1) ' ') ++ event.phase.word ++ " " ++
      event.node.kind.tag ++ " (" ++ event.slotKey ++ ")" := by
  apply String.toList_injective
  rw [toList_line]
  simp

/-- **The line of an event shows its mark**, if the tag has no parenthesis in it. -/
theorem Event.mark_eq_of_line_eq {event other : Event} {depth depth' : Nat}
    (htag : '(' ∉ event.node.kind.tag.toList) (htag' : '(' ∉ other.node.kind.tag.toList)
    (h : event.line depth = other.line depth') : event.mark = other.mark := by
  have hword : ∀ (phase : Phase) (cs : List Char), (phase.word.toList ++ cs).head? ≠ some ' ' := by
    intro phase cs
    cases phase <;> simp [Phase.word]
  have hlist := congrArg String.toList h
  rw [toList_line, toList_line] at hlist
  obtain ⟨-, hshown⟩ := replicate_append_inj (hword _ _) (hword _ _) hlist
  have hphase : event.phase = other.phase := by
    cases hphase : event.phase <;> cases hphase' : other.phase <;> simp_all [Phase.word]
  rw [hphase] at hshown
  have hafter := (List.cons.inj (List.append_cancel_left hshown)).2
  -- the tag, with the blank after it, ends at the first parenthesis
  rw [List.append_cons _ ' ', List.append_cons other.node.kind.tag.toList] at hafter
  obtain ⟨htags, hkeys⟩ := append_cons_inj_of_not_mem (by simpa using htag) (by simpa using htag') hafter
  have htags' := String.toList_injective (List.append_cancel_right htags)
  have hkeys' := String.toList_injective (List.append_cancel_right hkeys)
  rw [mark, mark, hphase, htags', hkeys']

theorem Event.not_mem_line {event : Event} (htag : '\n' ∉ event.node.kind.tag.toList)
    (hkey : '\n' ∉ event.slotKey.toList) (depth : Nat) : '\n' ∉ (event.line depth).toList := by
  have hword : '\n' ∉ event.phase.word.toList := by
    cases event.phase <;> decide
  rw [toList_line]
  simp [hword, htag, hkey]

/-- The lines of a text, which line breaks separate. -/
def linesOf (text : String) : List String :=
  (text.toList.splitOn '\n').map String.ofList

theorem linesOf_of_not_mem {text : String} (h : '\n' ∉ text.toList) : linesOf text = [text] := by
  rw [linesOf, List.splitOn_eq_singleton h, List.map_singleton, String.ofList_toList]

/-- **The lines of a text that was joined** are those of its parts, one part after the other. -/
theorem linesOf_joinLines {parts : List String} (h : parts ≠ []) :
    linesOf (joinLines parts) = parts.flatMap linesOf := by
  induction parts with
  | nil => exact absurd rfl h
  | cons part parts ih =>
    cases parts with
    | nil => rw [joinLines, String.intercalate_singleton, List.flatMap_singleton]
    | cons next parts =>
      have hlist : (joinLines (part :: next :: parts)).toList =
          part.toList ++ '\n' :: (joinLines (next :: parts)).toList := by
        rw [joinLines, String.intercalate_cons_cons]
        simp [joinLines]
      rw [List.flatMap_cons, ← ih (by simp), linesOf, hlist, List.splitOn_append_cons_self, List.map_append]
      rfl

/-! ## What a listing determines -/

theorem map_eq_map_of_imp {α β γ : Type} {f : α → β} {g : α → γ} {items items' : List α}
    (h : ∀ a ∈ items, ∀ b ∈ items', f a = f b → g a = g b) (heq : items.map f = items'.map f) :
    items.map g = items'.map g := by
  induction items generalizing items' with
  | nil => rw [List.map_eq_nil_iff.1 heq.symm]
  | cons a items ih =>
    cases items' with
    | nil => cases heq
    | cons b items' =>
      obtain ⟨hhead, htail⟩ := List.cons.inj heq
      rw [List.map_cons, List.map_cons, h a List.mem_cons_self b List.mem_cons_self hhead,
        ih (fun a ha b hb => h a (List.mem_cons_of_mem _ ha) b (List.mem_cons_of_mem _ hb)) htail]

/-- A tree whose listing can be read back: its tags have no line break and no parenthesis in them, and the
keys of its slots have no line break. -/
structure Node.Listable (root : Node) : Prop where
  tags : ∀ node ∈ root.preorder, '\n' ∉ node.kind.tag.toList ∧ '(' ∉ node.kind.tag.toList
  keys : ∀ node ∈ root.preorder, ∀ field ∈ node.fields, '\n' ∉ field.slot.key.toList

namespace Node

variable {root : Node}

theorem Listable.part (h : root.Listable) {field : Field} (hfield : field ∈ root.fields) {below : Node}
    (hbelow : below ∈ field.nodes) : below.Listable := by
  have hmem : ∀ node ∈ below.preorder, node ∈ root.preorder := fun node hnode =>
    mem_preorder.2 (Or.inr ⟨field, hfield, below, hbelow, hnode⟩)
  exact ⟨fun node hnode => h.tags node (hmem node hnode), fun node hnode => h.keys node (hmem node hnode)⟩

theorem Listable.of_mem_walkAt (h : root.Listable) {here : Position} {place : Option Place} {event : Event}
    (hplace : ∀ above ∈ place, '\n' ∉ above.slot.key.toList)
    (hevent : event ∈ root.walkAt (fun _ => false) here place) :
    '\n' ∉ event.node.kind.tag.toList ∧ '(' ∉ event.node.kind.tag.toList ∧ '\n' ∉ event.slotKey.toList := by
  induction root using Node.induction generalizing here place with
  | step root ih =>
    have hroot : root ∈ root.preorder := mem_preorder.2 (Or.inl rfl)
    rcases mem_walkAt.1 hevent with heq | ⟨-, visit, hvisit, hevent⟩
    · have hkey : '\n' ∉ event.slotKey.toList := by
        rw [heq]
        cases place with
        | none => exact (by decide : '\n' ∉ "root".toList)
        | some above => exact hplace above rfl
      rw [heq] at hkey ⊢
      exact ⟨(h.tags root hroot).1, (h.tags root hroot).2, hkey⟩
    · obtain ⟨i, j, field, hfield, hslot, -, hbelow, -⟩ := mem_walked_parts.1 hvisit
      have hfield' := List.mem_of_getElem? hfield
      have hbelow' := List.mem_of_getElem? hbelow
      refine ih field hfield' _ hbelow' (h.part hfield' hbelow') ?_ hevent
      rintro _ ⟨⟩
      rw [hslot]
      exact h.keys root hroot field hfield'

theorem Listable.of_mem_walk (h : root.Listable) {event : Event} (hevent : event ∈ root.walk fun _ => false) :
    '\n' ∉ event.node.kind.tag.toList ∧ '(' ∉ event.node.kind.tag.toList ∧ '\n' ∉ event.slotKey.toList :=
  h.of_mem_walkAt (by simp) hevent

theorem listing_eq (root : Node) :
    root.listing = (root.walk fun _ => false).map fun event => event.line event.position.length :=
  (root.keepsDepth_walkAt (fun _ => false) [] none).1.listEvents_eq

theorem map_mark_walk (root : Node) : (root.walk fun _ => false).map Event.mark = root.skeleton.marks :=
  root.map_mark_walkAt [] none

theorem linesOf_trace (root : Node) : linesOf root.trace = root.listing.flatMap linesOf := by
  have hwalk : root.walk (fun _ => false) = _ := root.walkAt_eq (fun _ => false) [] none
  refine linesOf_joinLines ?_
  rw [listing_eq, hwalk]
  simp

/-- A tree whose walk meets no line breaks in tags and keys. -/
def Unbroken (root : Node) : Prop :=
  ∀ event ∈ root.walk fun _ => false,
    '\n' ∉ event.node.kind.tag.toList ∧ '\n' ∉ event.slotKey.toList

/-- **The lines of the text are those of the listing**, if no line is broken. -/
theorem Unbroken.linesOf_trace (h : root.Unbroken) : linesOf root.trace = root.listing := by
  have hline : ∀ line ∈ root.listing, linesOf line = [line] := by
    intro line hline
    rw [listing_eq] at hline
    obtain ⟨event, hevent, rfl⟩ := List.mem_map.1 hline
    obtain ⟨htag, hkey⟩ := h event hevent
    exact linesOf_of_not_mem (Event.not_mem_line htag hkey _)
  rw [root.linesOf_trace, List.flatMap_congr hline, List.flatMap_singleton']

theorem Listable.unbroken (h : root.Listable) : root.Unbroken := fun _ hevent =>
  ⟨(h.of_mem_walk hevent).1, (h.of_mem_walk hevent).2.2⟩

/-- **Trees with the same listing have the same skeleton**: the lines are told from the text, the marks from the
lines, and the skeleton from the marks. -/
theorem Listable.skeleton_eq {other : Node} (h : root.Listable) (hother : other.Listable)
    (htrace : root.trace = other.trace) : root.skeleton = other.skeleton := by
  have hlines : root.listing = other.listing := by
    rw [← h.unbroken.linesOf_trace, htrace, hother.unbroken.linesOf_trace]
  rw [listing_eq, listing_eq] at hlines
  apply Skeleton.marks_injective
  rw [← map_mark_walk, ← map_mark_walk]
  refine map_eq_map_of_imp (fun event hevent event' hevent' hline => ?_) hlines
  exact Event.mark_eq_of_line_eq (h.of_mem_walk hevent).2.1 (hother.of_mem_walk hevent').2.1 hline

end Node

/-- A listing shows the marks of events only. -/
theorem listEvents_congr {depth : Nat} {events events' : List Event}
    (h : events.map Event.mark = events'.map Event.mark) :
    listEvents depth events = listEvents depth events' := by
  induction events generalizing depth events' with
  | nil => rw [List.map_eq_nil_iff.1 h.symm]
  | cons event events ih =>
    cases events' with
    | nil => cases h
    | cons event' events' =>
      obtain ⟨hmark, htail⟩ := List.cons.inj h
      have hphase : event.phase = event'.phase := congrArg Prod.fst hmark
      have htag : event.node.kind.tag = event'.node.kind.tag := congrArg (·.2.1) hmark
      have hkey : event.slotKey = event'.slotKey := congrArg (·.2.2) hmark
      have hline : ∀ depth, event.line depth = event'.line depth := by
        intro depth
        rw [Event.line, Event.line, hphase, htag, hkey]
      rw [listEvents, listEvents, hphase]
      cases event'.phase with
      | enter => simp only [hline, ih htail]
      | leave => simp only [hline, ih htail]

/-- **A listing determines the skeleton of its tree**, and shows nothing else of it. The line of an event is
indented by the depth of its node, whether the node is entered or left; the depth that a listing keeps is
that of the node when it is entered, and one more when it is left. -/
theorem trace_skeleton :
    (∀ a b : Node, a.Listable → b.Listable → (a.trace = b.trace ↔ a.skeleton = b.skeleton)) ∧
      (∀ (depth : Nat) (events more : List Event),
        listEvents depth (events ++ more) =
          listEvents depth events ++ listEvents (events.foldl Event.depthAfter depth) more) ∧
      ∀ (root : Node) (before after : List Event) (event : Event),
        (root.walk fun _ => false) = before ++ event :: after →
          root.listing[before.length]? =
              some (String.ofList (List.replicate (4 * event.position.length + 1) ' ') ++
                event.phase.word ++ " " ++ event.node.kind.tag ++ " (" ++ event.slotKey ++ ")") ∧
            before.foldl Event.depthAfter 0 =
              match event.phase with
              | .enter => event.position.length
              | .leave => event.position.length + 1 := by
  refine ⟨fun a b ha hb => ⟨fun h => ha.skeleton_eq hb h, fun h => ?_⟩, listEvents_append,
    fun root before after event h => ⟨?_, ?_⟩⟩
  · have hmarks : (a.walk fun _ => false).map Event.mark = (b.walk fun _ => false).map Event.mark := by
      rw [Node.map_mark_walk, Node.map_mark_walk, h]
    exact congrArg joinLines (listEvents_congr hmarks)
  · rw [root.listing_eq, h, ← Event.line_eq]
    simp
  · have hkeeps : KeepsDepth 0 (root.walk fun _ => false) :=
      (root.keepsDepth_walkAt (fun _ => false) [] none).1
    rw [h] at hkeeps
    exact hkeeps.foldl_eq

/-- A node with an empty tag, in a slot whose key is a parenthesis. -/
def bareField (fields : List Field) : Field :=
  .many (.other "(") [{ kind := .other "", fields }]

/-- A tree with two leaves side by side. -/
def leafBesideLeaf : Node where
  kind := .other "a )"
  fields := [bareField [], bareField []]

/-- A tree with the same nodes, one below the other. -/
def leafBelowLeaf : Node where
  kind := .other "a )"
  fields := [bareField [bareField []]]

/-- A tree that differs from it in what a listing does not show. -/
def leafBelowExpression : Node where
  kind := .other "a )"
  span := ⟨2, 9⟩
  fields :=
    [.one .expression leafBesideLeaf, bareField [.many .children [], bareField [.one .context default]]]

theorem trace_skeleton_leafBelowLeaf :
    (leafBesideLeaf.Listable ∧ leafBelowLeaf.Listable ∧ leafBelowExpression.Listable) ∧
      leafBelowLeaf.trace = leafBelowExpression.trace ∧ leafBelowLeaf.trace ≠ leafBesideLeaf.trace ∧
      leafBelowLeaf.listing[2]? = some "         BEGIN  (()" := by
  have hbeside : leafBesideLeaf.Listable := ⟨by decide +kernel, by decide +kernel⟩
  have hbelow : leafBelowLeaf.Listable := ⟨by decide +kernel, by decide +kernel⟩
  have hexpression : leafBelowExpression.Listable := ⟨by decide +kernel, by decide +kernel⟩
  obtain ⟨hsame, -, hline⟩ := trace_skeleton
  refine ⟨⟨hbeside, hbelow, hexpression⟩, (hsame _ _ hbelow hexpression).2 rfl, fun h => ?_, ?_⟩
  · have hskeleton := (hsame _ _ hbelow hbeside).1 h
    cases hskeleton
  · exact (hline leafBelowLeaf [_, _] [_, _, _] _ rfl).1

end TemplateCode
