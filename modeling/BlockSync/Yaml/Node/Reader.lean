/-
  BlockSync.Yaml.Node.Reader
  ──────────────────────────
  **FROM TOKENS TO THE TREE OF A DOCUMENT.**

  Each reader takes one construct from the front of a list of tokens and hands
  back what follows it.  A text may hold a single document at most.

  The readers recurse on a bound for the depth of their calls.  A call that
  takes no token itself hands on to one that does, or ends a collection, so a
  few calls for each token are enough.
-/
import BlockSync.Yaml.Node
import BlockSync.Yaml.Token.Lexer

namespace BlockSync.Yaml

/-! ## §1. What is known while a document is read. -/

/-- What the handles of tags stand for. -/
abbrev Handles := List (List Char × Bytes)

/-- The anchors so far: each name with the number it has now. -/
abbrev Anchors := List (List Char × Nat)

/-- The number of a name that is met, and the anchors then. -/
def Anchors.add (anchors : Anchors) (name : List Char) : Nat × Anchors :=
  (anchors.length, (name, anchors.length) :: anchors.filter (·.1 != name))

/-- What a reader hands back beside what it has read. -/
abbrev Remainder := Anchors × List Token

/-- What stands in front of a node. -/
structure Properties where
  anchor : Option (List Char) := none
  tag : Option Bytes := none

namespace Properties

/-- The address of a tag. -/
def address? (handles : Handles) (handle : List Char) (suffix : Bytes) : Option Bytes :=
  if handle.isEmpty then some suffix
  else (handles.lookup handle).map (· ++ suffix)

/-- An anchor and a tag in either order, and what follows them. -/
def take? (handles : Handles) : List Token → Option (Properties × List Token)
  | .anchor name :: .tag handle suffix :: rest
  | .tag handle suffix :: .anchor name :: rest => do
    let tag ← address? handles handle suffix
    some (⟨some name, some tag⟩, rest)
  | .anchor name :: rest => some (⟨some name, none⟩, rest)
  | .tag handle suffix :: rest => do
    let tag ← address? handles handle suffix
    some (⟨none, some tag⟩, rest)
  | tokens => some (⟨none, none⟩, tokens)

/-- Whether there is neither anchor nor tag. -/
def isEmpty (p : Properties) : Bool := p.anchor.isNone && p.tag.isNone

/-- The number of the anchor, and the anchors then. -/
def number (p : Properties) (anchors : Anchors) : Option Nat × Anchors :=
  match p.anchor with
  | none => (none, anchors)
  | some name =>
    let (n, anchors) := anchors.add name
    (some n, anchors)

end Properties

/-! ## §2. Nodes. -/

/-- The place of a node, which decides what it may be. -/
inductive Place where
  | inFlow
  | inBlock
  /-- A key or a value of a block, which may be a sequence that is not indented. -/
  | ofMapping
deriving DecidableEq

/-- Whether a token follows at once, so that a node in front of it is left out. -/
def omits (followers : List Token) (tokens : List Token) : Bool :=
  tokens.head?.any followers.contains

mutual

/-- One node. -/
def takeNode? (handles : Handles) :
    (depth : Nat) → Place → Anchors → List Token → Option (Node × Remainder)
  | 0, _, _, _ => none
  | _ + 1, _, anchors, .alias name :: rest =>
    (anchors.lookup name).map fun n => (.alias n, anchors, rest)
  | depth + 1, place, anchors, tokens => do
    let (properties, tokens) ← Properties.take? handles tokens
    let (anchor, anchors) := properties.number anchors
    match tokens with
    | .scalar style text :: rest => some (.scalar anchor style properties.tag text, anchors, rest)
    | .flowSequenceStart :: rest => do
      let (items, out) ← takeFlowItems? handles depth anchors rest
      some (.sequence anchor items, out)
    | .flowMappingStart :: rest => do
      let (entries, out) ← takeFlowEntries? handles depth anchors rest
      some (.mapping anchor entries, out)
    | tokens =>
      match place, tokens with
      | .ofMapping, .blockEntry :: _ => do
        let (items, out) ← takeFlushItems? handles depth anchors tokens
        some (.sequence anchor items, out)
      | .ofMapping, .blockSequenceStart :: rest | .inBlock, .blockSequenceStart :: rest => do
        let (items, out) ← takeBlockItems? handles depth anchors rest
        some (.sequence anchor items, out)
      | .ofMapping, .blockMappingStart :: rest | .inBlock, .blockMappingStart :: rest => do
        let (entries, out) ← takeBlockEntries? handles depth anchors rest
        some (.mapping anchor entries, out)
      | _, tokens =>
        if properties.isEmpty then none
        else some (.scalar anchor .plain properties.tag [], anchors, tokens)

/-- One node, unless one of the given tokens shows that it is left out. -/
def takeNodeBefore? (handles : Handles) :
    (depth : Nat) → Place → (followers : List Token) → Anchors → List Token →
      Option (Node × Remainder)
  | 0, _, _, _, _ => none
  | depth + 1, place, followers, anchors, tokens =>
    if omits followers tokens then some (.omitted, anchors, tokens)
    else takeNode? handles depth place anchors tokens

/-- The value behind a key, if there is one. -/
def takeValue? (handles : Handles) :
    (depth : Nat) → Place → (followers : List Token) → Anchors → List Token →
      Option (Node × Remainder)
  | 0, _, _, _, _ => none
  | depth + 1, place, followers, anchors, .value :: rest =>
    takeNodeBefore? handles depth place followers anchors rest
  | _ + 1, _, _, anchors, tokens => some (.omitted, anchors, tokens)

/-- The items of an indented sequence, up to its end. -/
def takeBlockItems? (handles : Handles) :
    (depth : Nat) → Anchors → List Token → Option (List Node × Remainder)
  | 0, _, _ => none
  | _ + 1, anchors, .blockEnd :: rest => some ([], anchors, rest)
  | depth + 1, anchors, .blockEntry :: rest => do
    let (item, anchors, rest) ←
      takeNodeBefore? handles depth .inBlock [.blockEntry, .blockEnd] anchors rest
    let (items, out) ← takeBlockItems? handles depth anchors rest
    some (item :: items, out)
  | _ + 1, _, _ => none

/-- The items of a sequence that stands flush with the keys around it. -/
def takeFlushItems? (handles : Handles) :
    (depth : Nat) → Anchors → List Token → Option (List Node × Remainder)
  | 0, _, _ => none
  | depth + 1, anchors, .blockEntry :: rest => do
    let (item, anchors, rest) ←
      takeNodeBefore? handles depth .inBlock [.blockEntry, .key, .value, .blockEnd] anchors rest
    let (items, out) ← takeFlushItems? handles depth anchors rest
    some (item :: items, out)
  | _ + 1, anchors, tokens => some ([], anchors, tokens)

/-- The entries of an indented mapping, up to its end. -/
def takeBlockEntries? (handles : Handles) :
    (depth : Nat) → Anchors → List Token → Option (List (Node × Node) × Remainder)
  | 0, _, _ => none
  | _ + 1, anchors, .blockEnd :: rest => some ([], anchors, rest)
  | depth + 1, anchors, .key :: rest => do
    let followers := [.key, .value, .blockEnd]
    let (key, anchors, rest) ← takeNodeBefore? handles depth .ofMapping followers anchors rest
    let (value, anchors, rest) ← takeValue? handles depth .ofMapping followers anchors rest
    let (entries, out) ← takeBlockEntries? handles depth anchors rest
    some ((key, value) :: entries, out)
  | _ + 1, _, _ => none

/-- The items of a sequence in brackets, up to its end. -/
def takeFlowItems? (handles : Handles) :
    (depth : Nat) → Anchors → List Token → Option (List Node × Remainder)
  | 0, _, _ => none
  | _ + 1, anchors, .flowSequenceEnd :: rest => some ([], anchors, rest)
  | depth + 1, anchors, tokens => do
    let (item, anchors, rest) ← takeFlowItem? handles depth anchors tokens
    match rest with
    | .flowEntry :: rest =>
      let (items, out) ← takeFlowItems? handles depth anchors rest
      some (item :: items, out)
    | .flowSequenceEnd :: rest => some ([item], anchors, rest)
    | _ => none

/-- One item in brackets; a key there makes it a mapping of one entry.  If that
key is left out, the token that shows it is taken as well. -/
def takeFlowItem? (handles : Handles) :
    (depth : Nat) → Anchors → List Token → Option (Node × Remainder)
  | 0, _, _ => none
  | depth + 1, anchors, .key :: rest => do
    let (key, anchors, rest) ←
      if omits [.value, .flowEntry, .flowSequenceEnd] rest then
        some (.omitted, anchors, rest.drop 1)
      else takeNode? handles depth .inFlow anchors rest
    let (value, out) ←
      takeValue? handles depth .inFlow [.flowEntry, .flowSequenceEnd] anchors rest
    some (.mapping none [(key, value)], out)
  | depth + 1, anchors, tokens => takeNode? handles depth .inFlow anchors tokens

/-- The entries of a mapping in brackets, up to its end. -/
def takeFlowEntries? (handles : Handles) :
    (depth : Nat) → Anchors → List Token → Option (List (Node × Node) × Remainder)
  | 0, _, _ => none
  | _ + 1, anchors, .flowMappingEnd :: rest => some ([], anchors, rest)
  | depth + 1, anchors, tokens => do
    let (entry, anchors, rest) ← takeFlowEntry? handles depth anchors tokens
    match rest with
    | .flowEntry :: rest =>
      let (entries, out) ← takeFlowEntries? handles depth anchors rest
      some (entry :: entries, out)
    | .flowMappingEnd :: rest => some ([entry], anchors, rest)
    | _ => none

/-- One entry in brackets; a node that is no key has no value. -/
def takeFlowEntry? (handles : Handles) :
    (depth : Nat) → Anchors → List Token → Option ((Node × Node) × Remainder)
  | 0, _, _ => none
  | depth + 1, anchors, .key :: rest => do
    let (key, anchors, rest) ←
      takeNodeBefore? handles depth .inFlow [.value, .flowEntry, .flowMappingEnd] anchors rest
    let (value, out) ←
      takeValue? handles depth .inFlow [.flowEntry, .flowMappingEnd] anchors rest
    some ((key, value), out)
  | depth + 1, anchors, tokens => do
    let (key, out) ← takeNode? handles depth .inFlow anchors tokens
    some ((key, .omitted), out)

end

/-! ## §3. Documents. -/

/-- The directives in front of a document, and what follows them: at most one
version, which must be known, and one meaning for each handle. -/
def takeDirectives? : (versioned : Bool) → Handles → List Token → Option (Handles × List Token)
  | versioned, handles, .version major minor :: rest =>
    if versioned || major ≠ 1 || (minor ≠ 1 && minor ≠ 2) then none
    else takeDirectives? true handles rest
  | versioned, handles, .tagDirective handle expansion :: rest =>
    if (handles.lookup handle).isSome then none
    else takeDirectives? versioned (handles ++ [(handle, expansion)]) rest
  | _, handles, tokens => some (handles, tokens)

/-- What the handles stand for where no directive tells. -/
def standardHandles : Handles :=
  [(Tag.primary, ['!'.toUInt8]), (Tag.secondary, "tag:yaml.org,2002:".toUTF8.toList)]

/-- The tree of a document, after the mark in front of it. -/
def takeContent? (handles : Handles) (tokens : List Token) : Option (Node × List Token) :=
  match tokens with
  | [] | .version .. :: _ | .tagDirective .. :: _ | .documentStart :: _ | .documentEnd :: _ =>
    some (.omitted, tokens)
  | _ =>
    (takeNode? (handles ++ standardHandles) (4 * tokens.length + 4) .inBlock [] tokens).map
      fun (n, _, rest) => (n, rest)

/-- The tree of a document, its directives and the mark in front of it included. -/
def takeDocument? (tokens : List Token) : Option (Node × List Token) :=
  match tokens with
  | .version .. :: _ | .tagDirective .. :: _ | .documentStart :: _ => do
    let (handles, rest) ← takeDirectives? false [] tokens
    match rest with
    | .documentStart :: rest => takeContent? handles rest
    | _ => none
  | _ =>
    (takeNode? standardHandles (4 * tokens.length + 4) .inBlock [] tokens).map
      fun (n, _, rest) => (n, rest)

/-- **The tree of the document in a list of tokens**: nothing inside if there
is no document, nothing at all if there are several or the tokens are
malformed. -/
def Node.ofTokens? (tokens : List Token) : Option (Option Node) :=
  if tokens.isEmpty then some none
  else do
    let (root, rest) ← takeDocument? tokens
    if rest.all (· == .documentEnd) then some (some root) else none

/-- The tree of the document that bytes stand for. -/
def Node.ofBytes? (bytes : Bytes) : Option (Option Node) := do
  let text ← Text.ofBytes? bytes
  let tokens ← Token.ofText? text
  Node.ofTokens? tokens

end BlockSync.Yaml
