import SourceTables.Xml.Token

/-!
# `SourceTables.Xml.Tree`: the elements of a document

Every end closes the innermost open element, whose name it bears. Prefixes of names stand for spaces
that the element or one around it declares; without a prefix, attributes belong to no space. No
element has an attribute twice.

Elements are found by their names without prefix, among the children of an element or among all that
lie in it. The text of an element is what it starts with, if that is text.
-/

set_option autoImplicit false

namespace SourceTables.Xml

/-- An attribute: the space that its name belongs to, if any, its name without prefix, its value. -/
structure Attribute where
  space : Option String
  name : String
  value : String
deriving DecidableEq

/-- A part of a document. Elements are known by their names without prefix. -/
inductive Node where
  | element (name : String) (attributes : List Attribute) (children : List Node)
  | text (content : String)
  /-- A comment or an instruction. -/
  | aside

instance : Inhabited Node := ⟨.aside⟩

/-- The spaces that prefixes stand for, innermost first. -/
abbrev Spaces := List (List Char × String)

/-- A space that belongs to the format itself, by its place on the host of the standard. -/
def standardSpace (place : String) : String := "http:" ++ "//www.w3.org/" ++ place

/-- The space of the prefix `xml`. -/
def xmlSpace : String := standardSpace "XML/1998/namespace"

/-- The space of the prefix `xmlns`. -/
def declarationSpace : String := standardSpace "2000/xmlns/"

/-- The prefix that declares others. -/
def declarationPrefix : List Char := ['x', 'm', 'l', 'n', 's']

/-- The space of a prefix. -/
def Spaces.find? (spaces : Spaces) (mark : List Char) : Option String :=
  (List.find? (fun s => s.1 == mark) spaces).map Prod.snd

/-- Whether an attribute may declare a prefix, given those that its element has declared. -/
def mayDeclare (declared : Spaces) (mark : List Char) (space : String) : Bool :=
  space != declarationSpace && (mark = ['x', 'm', 'l']) == (space == xmlSpace)
    && (declared.find? mark).isNone

/-- The spaces that attributes declare for prefixes, and the attributes that declare none. A space for
names without prefix is checked, but such names are known without it. -/
def declarations? (declared : Spaces) :
    List (Name × List Char) → Option (Spaces × List (Name × List Char))
  | [] => some (declared, [])
  | (name, value) :: rest =>
    let space := String.ofList value
    -- `xmlns:p="s"` declares the prefix `p`.
    if name.space = declarationPrefix then
      if mayDeclare declared name.base space then
        declarations? (if space = xmlSpace then declared else (name.base, space) :: declared) rest
      else none
    -- `xmlns="s"` declares a space for names without prefix.
    else if name.base = declarationPrefix then
      if space = xmlSpace || space = declarationSpace then none
      else declarations? declared rest
    else (declarations? declared rest).map fun (spaces, others) => (spaces, (name, value) :: others)

/-- The space of a prefix that has to be declared; no prefix needs none. -/
def spaceOf? (spaces : Spaces) (mark : List Char) : Option (Option String) :=
  if mark.isEmpty then some none else (spaces.find? mark).map some

/-- An attribute with its space. -/
def attribute? (spaces : Spaces) (a : Name × List Char) : Option Attribute :=
  (spaceOf? spaces a.1.space).map fun space => ⟨space, String.ofList a.1.base, String.ofList a.2⟩

/-- Whether no two attributes have the same name in the same space. -/
def distinct (attributes : List Attribute) : Bool :=
  let names := attributes.map fun a => (a.space, a.name)
  names.eraseDups.length == names.length

/-- An element that has not ended, with its children so far in reverse. -/
structure OpenElement where
  name : Name
  attributes : List Attribute
  spaces : Spaces
  children : List Node

/-- The node of an element whose end has come. -/
def OpenElement.node (e : OpenElement) : Node :=
  .element (String.ofList e.name.base) e.attributes e.children.reverse

/-- What has been read of a document: the open elements, innermost first, and the outermost element
once it has ended. -/
structure Reading where
  stack : List OpenElement
  root : Option Node

/-- The spaces at the place that has been reached. -/
def Reading.spaces (r : Reading) : Spaces :=
  match r.stack with
  | [] => [(['x', 'm', 'l'], xmlSpace)]
  | e :: _ => e.spaces

/-- Adds a node to the innermost open element. Texts that follow one another are one. -/
def Reading.add (r : Reading) (node : Node) : Reading :=
  match r.stack with
  | [] => { r with root := some node }
  | e :: rest =>
    let children := match node, e.children with
      | .text new, .text old :: before => Node.text (old ++ new) :: before
      | _, before => node :: before
    { r with stack := { e with children } :: rest }

/-- One more token. -/
def Reading.step (r : Reading) : Token → Option Reading
  | .aside => some (r.add .aside)
  | .text content => some (r.add (.text (String.ofList content)))
  | .start name attributes closed => do
    if name.space = declarationPrefix then none
    let (declared, others) ← declarations? [] attributes
    -- Declarations hold for the element that bears them, too.
    let spaces := declared ++ r.spaces
    let attributes ← others.mapM (attribute? spaces)
    let _ ← spaceOf? spaces name.space
    if !distinct attributes then none
    let e : OpenElement := ⟨name, attributes, spaces, []⟩
    return if closed then r.add e.node else { r with stack := e :: r.stack }
  -- Prefix and name have to agree as they are written.
  | .stop name => match r.stack with
    | [] => none
    | e :: rest => if e.name = name then some ({ r with stack := rest }.add e.node) else none

/-- The outermost element of a document. -/
def parse? (document : String) : Option Node := do
  let tokens ← tokens? document.toList
  let r ← tokens.foldlM Reading.step ⟨[], none⟩
  if r.stack.isEmpty then r.root else none

/-! ### Looking into elements -/

/-- An element of a document. -/
structure Element where
  name : String
  attributes : List Attribute
  children : List Node

/-- The element that a node is. -/
def Node.element? : Node → Option Element
  | .element name attributes children => some ⟨name, attributes, children⟩
  | .text _ | .aside => none

/-- The elements right in an element, by name. -/
def Element.named (e : Element) (name : String) : List Element :=
  (e.children.filterMap Node.element?).filter (fun child => child.name == name)

mutual

/-- The elements that a node is and holds, in the order of their starts. -/
def Node.elements : Node → List Element
  | .element name attributes children => ⟨name, attributes, children⟩ :: allElements children
  | .text _ => []
  | .aside => []
termination_by structural n => n

/-- The elements that some nodes are and hold. -/
def allElements : List Node → List Element
  | [] => []
  | n :: rest => n.elements ++ allElements rest
termination_by structural ns => ns

end

/-- An element and all elements in it. -/
def Element.all (e : Element) : List Element := e :: allElements e.children

/-- An element with those that it lies in, innermost first. -/
structure Place where
  element : Element
  above : List Element

mutual

/-- The places of the elements that a node is and holds, in the order of their starts. `above` are the
elements that the node lies in. -/
def Node.places : (above : List Element) → Node → List Place
  | above, .element name attributes children =>
    ⟨⟨name, attributes, children⟩, above⟩ :: allPlaces (⟨name, attributes, children⟩ :: above) children
  | _, .text _ => []
  | _, .aside => []
termination_by structural _ n => n

/-- The places of the elements that some nodes are and hold. -/
def allPlaces : (above : List Element) → List Node → List Place
  | _, [] => []
  | above, n :: rest => n.places above ++ allPlaces above rest
termination_by structural _ ns => ns

end

/-- The places of an element and all elements in it, as seen from the element. -/
def Element.places (e : Element) : List Place := ⟨e, []⟩ :: allPlaces [e] e.children

/-- The text that an element starts with. -/
def Element.text? (e : Element) : Option String :=
  match e.children with
  | .text content :: _ => some content
  | _ => none

/-- The value of an attribute in no space. -/
def Element.value? (e : Element) (name : String) : Option String :=
  (e.attributes.find? (fun a => a.space = none && a.name == name)).map Attribute.value

/-- The value of the first attribute of a name that lies in some space. -/
def Element.spacedValue? (e : Element) (name : String) : Option String :=
  (e.attributes.find? (fun a => a.space.isSome && a.name == name)).map Attribute.value

/-- The texts of all elements of a name in an element, one after another. -/
def Element.textOf (e : Element) (name : String) : String :=
  String.join ((e.all.filter (fun inner => inner.name == name)).filterMap Element.text?)

/-- The outermost element of a document. -/
def root? (document : String) : Option Element := (parse? document).bind Node.element?

end SourceTables.Xml
