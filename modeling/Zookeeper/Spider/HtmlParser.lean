import Zookeeper.Spider.HtmlClone
import Zookeeper.Spider.TokenParser
import Zookeeper.StackMoves

/-!
# Documents from tokens

`HtmlParser::Parse` (`spider/html/HtmlParser.cpp`) goes over the tokens of a page with a stack
of the tags that are open, the root of the document below them all.

An end tag pops the stack, whatever its name and whatever is left, the root as well.  A second
end tag too many finds the stack empty, and so does text behind the first.
-/

namespace HtmlDoc

/-! ## Characters and tokens -/

/-- `isspace`. -/
def isspace (c : UInt8) : Bool := c == 32 || (9 ≤ c && c ≤ 13)

/-- `iswprint` in the "C" locale. -/
def isprint (c : UInt8) : Bool := 32 ≤ c && c ≤ 126

/-- `Trim`. -/
def trim (s : Bytes) : Bytes := ((s.dropWhile isspace).reverse.dropWhile isspace).reverse

/-- How `Parse` may end without a document. -/
inductive ParseFault where
  /-- A `std::logic_error`. -/
  | logicError (what : Bytes)
  /-- The `std::out_of_range` of `at`, which is a `std::logic_error` too. -/
  | outOfRange
  /-- `pop` or `top` of an empty stack. -/
  | underflow
  /-- `tokens[i]` where there is no token `i`. -/
  | beyond
  /-- The turns do not suffice. -/
  | unfinished
deriving DecidableEq, Repr

/-- `Unexpected end of document`. -/
def endOfDocument : Bytes := "Unexpected end of document".toUTF8.toList

def unexpectedToken (token : Bytes) : Bytes :=
  "Unexpected ".toUTF8.toList ++ token ++ " token".toUTF8.toList

/-- `tokens[i]`. -/
def index (tokens : List Bytes) (i : Nat) : Except ParseFault Bytes :=
  match tokens[i]? with
  | none => .error .beyond
  | some token => .ok token

/-- `tokens.at(i)`. -/
def at_ (tokens : List Bytes) (i : Nat) : Except ParseFault Bytes :=
  match tokens[i]? with
  | none => .error .outOfRange
  | some token => .ok token

/-- The loop of `Find`, over the tokens from `i` on. -/
def findFrom (c : Bytes) : List Bytes → Nat → Option Nat
  | [], _ => none
  | token :: rest, i => if token = c then some i else findFrom c rest (i + 1)

/-- `Find`. -/
def find (tokens : List Bytes) (offset : Nat) (c : Bytes) : Option Nat :=
  findFrom c (tokens.drop offset) offset

/-- `SkipDoctype`. -/
def skipDoctype (tokens : List Bytes) (offset : Nat) : Except ParseFault Nat :=
  match find tokens offset tokenOpen with
  | none => .ok offset
  | some pos =>
      if pos + 4 < tokens.length then do
        let bang ← index tokens 1
        let doctype ← index tokens 2
        let close ← index tokens 4
        if bang = tokenBang ∧ doctype = tokenDoctype ∧ close = tokenClose then return pos + 5
        else return offset
      else .ok offset

/-- The loop of `SkipAnnotation`, over the tokens from `j` on, behind the token `last`. -/
def annotationEnd (last : Bytes) : List Bytes → Nat → Option Nat
  | [], _ => none
  | token :: rest, j =>
      if token = tokenClose ∧ tokenDashes <:+ last then some j
      else annotationEnd token rest (j + 1)

/-- `SkipAnnotation`, with where it leaves `i` if it returns true. -/
def skipAnnotation (tokens : List Bytes) (i : Nat) : Option Nat :=
  match tokens.drop (i + 2) with
  | last :: token :: rest =>
      if tokenDashes <+: last then annotationEnd last (token :: rest) (i + 3) else none
  | _ => none

/-- The loop of `ReadTextNodeUntil`, over the tokens from `j` on, with the text that it has
and where it leaves `i` if the end tag is found. -/
def textUntil (name text : Bytes) : List Bytes → Nat → Option (Bytes × Nat)
  | [], _ => none
  | token :: rest, j =>
      if token = tokenOpen ∧ [tokenSlash, name, tokenClose] <+: rest then some (text, j + 3)
      else textUntil name (text ++ token) rest (j + 1)

/-! ## Start tags -/

/-- `AddAttribute`. -/
def Tag.addAttribute (tag : Tag) (key value : Bytes) : Tag :=
  { tag with attributes := tag.attributes.filter (fun p => p.1 ≠ key) ++ [(key, value)] }

/-- `id` -/
abbrev keyId : Bytes := [105, 100]

/-- `class` -/
abbrev keyClass : Bytes := [99, 108, 97, 115, 115]

/-- What an attribute sets. -/
def Tag.setAttribute (tag : Tag) (name value : Bytes) : Tag :=
  if name = keyId then { tag with id := value }
  else if name = keyClass then { tag with classes := value.splitOn 32 }
  else tag.addAttribute name value

/-- `img`, `meta`, `link`, `input`, `br` and `hr`. -/
def voidTags : List Bytes :=
  [[105, 109, 103], [109, 101, 116, 97], [108, 105, 110, 107], [105, 110, 112, 117, 116],
    [98, 114], [104, 114]]

/-- `step` in `ParseTagBegin`, with the name it has read. -/
inductive AttrStep where
  | name
  | equal (name : Bytes)
  | value (name : Bytes)

/-- The loop of `ParseTagBegin`, over the tokens from `i` on. -/
def readAttributes : List Bytes → Nat → AttrStep → Tag → Except ParseFault (Tag × Nat)
  | [], _, _, _ => .error (.logicError endOfDocument)
  | token :: rest, i, step, tag =>
      if token = tokenClose then .ok (tag, i + 1)
      else
        match step with
        | .name => readAttributes rest (i + 1) (.equal token) tag
        | .equal name =>
            if token = tokenEqual then readAttributes rest (i + 1) (.value name) tag
            else .error (.logicError (unexpectedToken token))
        | .value name => readAttributes rest (i + 1) .name (tag.setAttribute name token)

/-- `ParseTagBegin`, with where it leaves `i`. -/
def parseTagBegin (tokens : List Bytes) (i : Nat) : Except ParseFault (Tag × Nat) := do
  let name ← index tokens (i + 1)
  let token ← at_ tokens (i + 2)
  let (tag, j) ← (if token = tokenClose then .ok ({ name }, i + 2)
    else readAttributes (tokens.drop (i + 2)) (i + 2) .name { name } :
      Except ParseFault (Tag × Nat))
  let last ← at_ tokens (j - 2)
  let hasCloseTag := last ≠ tokenSlash && !voidTags.contains tag.name
  return ({ tag with hasCloseTag }, j - 1)

/-! ## The parser -/

def Nodes.append {ν : Type} : Nodes ν → Nodes ν → Nodes ν
  | .nil, nodes => nodes
  | .text at_ data rest, nodes => .text at_ data (rest.append nodes)
  | .tag at_ t children rest, nodes => .tag at_ t children (rest.append nodes)

namespace TagNode

def new (tag : Tag) : TagNode Unit := ⟨(), tag, .nil⟩

/-- `AddChild` of a text. -/
def addText (node : TagNode Unit) (text : Bytes) : TagNode Unit :=
  { node with children := node.children.append (.text () text .nil) }

/-- `AddChild` of a tag. -/
def addTag (node child : TagNode Unit) : TagNode Unit :=
  { node with children := node.children.append (.tag () child.tag child.children .nil) }

/-- The tags below, each a child of the next one. -/
def closeAll : TagNode Unit → List (TagNode Unit) → TagNode Unit
  | node, [] => node
  | node, parent :: stack => closeAll (parent.addTag node) stack

end TagNode

/-- The locals of `Parse`.  A tag on the stack is put among the children of the one below when
it is popped, and nothing comes between.  `root` is the root once that is popped. -/
structure HtmlParser where
  tokens : List Bytes
  i : Nat
  stack : List (TagNode Unit)
  root : Option (TagNode Unit) := none

namespace HtmlParser

def next (s : HtmlParser) : HtmlParser := { s with i := s.i + 1 }

/-- `stack.pop()` -/
def pop (s : HtmlParser) : Except ParseFault HtmlParser :=
  match s.stack with
  | [] => .error .underflow
  | [node] => .ok { s with stack := [], root := s.root.or (some node) }
  | node :: parent :: stack => .ok { s with stack := parent.addTag node :: stack }

/-- A tag that has been read is pushed if it is to be closed, and put into the tag at the top
if there is one. -/
def startTag (s : HtmlParser) (tag : Tag) (i : Nat) : HtmlParser :=
  if tag.hasCloseTag then { s with i, stack := TagNode.new tag :: s.stack }
  else
    match s.stack with
    | [] => { s with i }
    | top :: stack => { s with i, stack := top.addTag (.new tag) :: stack }

/-- Whether the tag at the top is a script or a style. -/
def rawTop (s : HtmlParser) : Bool :=
  match s.stack with
  | [] => false
  | top :: _ => isRaw top.tag.name

/-- `ReadTextNodeUntil` -/
def readTextNodeUntil (s : HtmlParser) : HtmlParser :=
  match s.stack with
  | [] => s
  | top :: stack =>
      match textUntil top.tag.name [] (s.tokens.drop (s.i + 1)) (s.i + 1) with
      | none => s
      | some (text, i) =>
          let top := if text = [] then top else top.addText text
          { s with i, stack := { top with tag := { top.tag with hasCloseTag := false } } :: stack }

/-- What stands behind a `>`, if no tag does. -/
def textAfter (tokens : List Bytes) (i : Nat) : Option Bytes :=
  match tokens[i + 1]? with
  | none => none
  | some token => if token = tokenOpen then none else some (trim token)

/-- Text behind a `>` goes to the tag at the top. -/
def readText (s : HtmlParser) : Except ParseFault HtmlParser :=
  match textAfter s.tokens s.i with
  | none => .ok s
  | some text =>
      let s := { s with tokens := s.tokens.set (s.i + 1) text }
      if text.any isalpha then
        match s.stack with
        | [] => .error .underflow
        | top :: stack => .ok { s with stack := top.addText text :: stack }
      else .ok s

/-- What a turn does from `token = tokens.at(i)` on. -/
def atClose (s : HtmlParser) : Except ParseFault HtmlParser := do
  let token ← at_ s.tokens s.i
  if token = tokenClose then
    if s.rawTop then return (← s.readTextNodeUntil.pop).next
    else return (← s.readText).next
  else return s.next

/-- A turn of the loop. -/
def turn (s : HtmlParser) : Except ParseFault HtmlParser := do
  let token ← at_ s.tokens s.i
  if token.all (fun c => !isprint c) then return s.next
  else if token = tokenOpen then
    match s.tokens[s.i + 1]? with
    | none => throw (.logicError endOfDocument)
    | some token =>
        if token = tokenBang then
          match skipAnnotation s.tokens s.i with
          | some j => return { s with i := j + 1 }
          | none => s.atClose
        else if token = tokenSlash then
          (← s.pop).atClose
        else
          let (tag, j) ← parseTagBegin s.tokens s.i
          (s.startTag tag j).atClose
  else s.atClose

/-- The loop of `Parse`. -/
def loop : Nat → HtmlParser → Except ParseFault HtmlParser
  | 0, s => if s.i < s.tokens.length then .error .unfinished else .ok s
  | n + 1, s => if s.i < s.tokens.length then do loop n (← s.turn) else .ok s

/-- The document of the root. -/
def document (s : HtmlParser) : TagNode Unit :=
  match s.root, s.stack with
  | some root, _ => root
  | none, [] => .new {}
  | none, node :: stack => node.closeAll stack

/-- `HtmlParser::Parse`. -/
def parse (content : Bytes) : Except ParseFault (TagNode Unit) := do
  let tokens := TokenParser.parse content
  let i ← skipDoctype tokens 0
  let s ← loop tokens.length { tokens, i, stack := [.new {}] }
  return s.document

end HtmlParser

end HtmlDoc
