/-!
# Node kinds

The type tags that a template parser gives to its nodes. Tags with a meaning of their own are
constructors; any other tag is kept as it stands.
-/

namespace TemplateCode

/-- What a node of a template tree is. -/
inductive Kind where
  | fragment
  | element
  | inlineComponent
  | slotTemplate
  | plainAttribute
  | letDirective
  | text
  | ifBlock
  | elseBlock
  | eachBlock
  | awaitBlock
  | pendingBlock
  | thenBlock
  | catchBlock
  | keyBlock
  | mustacheTag
  | rawMustacheTag
  | debugTag
  | attributeShorthand
  | binding
  | classDirective
  | eventHandler
  | action
  | transition
  | animation
  | spread
  /-- A tag without a meaning of its own. -/
  | other (tag : String)
deriving DecidableEq, Inhabited, Repr

namespace Kind

/-- The type tag of a kind. -/
def tag : Kind → String
  | fragment => "Fragment"
  | element => "Element"
  | inlineComponent => "InlineComponent"
  | slotTemplate => "SlotTemplate"
  | plainAttribute => "Attribute"
  | letDirective => "Let"
  | text => "Text"
  | ifBlock => "IfBlock"
  | elseBlock => "ElseBlock"
  | eachBlock => "EachBlock"
  | awaitBlock => "AwaitBlock"
  | pendingBlock => "PendingBlock"
  | thenBlock => "ThenBlock"
  | catchBlock => "CatchBlock"
  | keyBlock => "KeyBlock"
  | mustacheTag => "MustacheTag"
  | rawMustacheTag => "RawMustacheTag"
  | debugTag => "DebugTag"
  | attributeShorthand => "AttributeShorthand"
  | binding => "Binding"
  | classDirective => "Class"
  | eventHandler => "EventHandler"
  | action => "Action"
  | transition => "Transition"
  | animation => "Animation"
  | spread => "Spread"
  | other tag => tag

/-- The kinds that have a tag reserved for them. -/
def reserved : List Kind :=
  [fragment, element, inlineComponent, slotTemplate, plainAttribute, letDirective, text, ifBlock,
    elseBlock, eachBlock, awaitBlock, pendingBlock, thenBlock, catchBlock, keyBlock, mustacheTag,
    rawMustacheTag, debugTag, attributeShorthand, binding, classDirective, eventHandler, action,
    transition, animation, spread]

/-- The kind that a type tag stands for. -/
def ofTag (tag : String) : Kind :=
  (reserved.find? fun kind => kind.tag == tag).getD (other tag)

/-- Whether a kind only records its tag. -/
def isOther : Kind → Bool
  | other _ => true
  | _ => false

end Kind

end TemplateCode
