import Orchestrion.Diagnostic

/-!
# Sections of an orchestra

The global blocks of an orchestra make one section. Instruments, opcodes and templates share their
names: the first declaration of a name is kept and every later one is dropped with a complaint.
-/

namespace Orchestrion

namespace Item

def declared? : Item → Option (Keyword × Text)
  | global _ => none
  | instrument i => some (.instr, i.ident)
  | opcode o => some (o.kind.keyword, o.ident)
  | template t => some (.template, t.ident)

def node : Item → Node
  | global b => .global b
  | instrument i => .instrument i
  | opcode o => .opcode o
  | template t => .template t

end Item

/-- An item and whether its name was free. -/
structure Claim where
  item : Item
  /-- How the name was declared before. -/
  earlier : Option Keyword
deriving Repr

namespace Claim

def isKept (c : Claim) : Bool := c.earlier.isNone

def diagnostic? (c : Claim) : Option Diagnostic :=
  match c.earlier, c.item.declared? with
  | some first, some (keyword, name) =>
    some (Diagnostic.about c.item.node (.named keyword name) (.duplicateUnit first name))
  | _, _ => none

end Claim

def claimsFrom (seen : List (Text × Keyword)) : List Item → List Claim
  | [] => []
  | item :: items =>
    match item.declared? with
    | none => ⟨item, none⟩ :: claimsFrom seen items
    | some (keyword, name) =>
      match seen.lookup name with
      | some first => ⟨item, some first⟩ :: claimsFrom seen items
      | none => ⟨item, none⟩ :: claimsFrom ((name, keyword) :: seen) items

def OrchestraTree.claims (o : OrchestraTree) : List Claim := claimsFrom [] o.items

/-- The items of an orchestra by their kinds. -/
structure Sections where
  global : GlobalBlock
  instruments : List Instrument
  opcodes : List Opcode
  templates : List Instrument
  /-- One complaint for each item that is dropped. -/
  errors : List Diagnostic
deriving Repr

namespace Sections

def globalBlocks (items : List Item) : List GlobalBlock :=
  items.filterMap fun
    | .global b => some b
    | _ => none

def mergeGlobal (items : List Item) : GlobalBlock :=
  let blocks := globalBlocks items
  ⟨(blocks.head?.map GlobalBlock.span).getD {}, blocks.flatMap GlobalBlock.items⟩

def ofClaims (claims : List Claim) : Sections :=
  let kept := (claims.filter Claim.isKept).map Claim.item
  { global := mergeGlobal kept
    instruments := kept.filterMap fun
      | .instrument i => some i
      | _ => none
    opcodes := kept.filterMap fun
      | .opcode o => some o
      | _ => none
    templates := kept.filterMap fun
      | .template t => some t
      | _ => none
    errors := claims.filterMap Claim.diagnostic? }

def opcode? (s : Sections) (name : Text) : Option Opcode :=
  s.opcodes.find? fun o => o.ident = name

end Sections

def OrchestraTree.sections (o : OrchestraTree) : Sections := .ofClaims o.claims

end Orchestrion
