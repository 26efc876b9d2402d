import ContractAudit.Yaml.Scalar
import ContractAudit.Yaml.Token

/-!
YAML documents as trees.

Only the first document of a text is read; what follows it is not looked at. An alias stands for a
copy of the node with its anchor, and the entries of a mapping under the key `<<` are taken over by
the mapping around it.
-/

namespace ContractAudit.Yaml

/-- A node of a YAML document. The text of a plain scalar may stand for a number or a truth value;
that of a quoted one stands for itself. -/
inductive Node where
  | scalar (text : Text) (plain : Bool)
  | sequence (items : List Node)
  | mapping (entries : List (Node × Node))
  /-- A node that is well formed but stands for nothing: a scalar that does not fit its tag, or a
  mapping with a key twice. It may stand where nobody looks. -/
  | senseless
deriving Repr, Inhabited

/-- The node of nothing. -/
def Node.missing : Node := .scalar [] true

/-- The tokens that are left, and the nodes with anchors. -/
structure Reading where
  tokens : List Token
  anchors : List (Text × Node) := []

/-- A node and what is left behind it. Nothing is found where the tokens make no sense. -/
abbrev NodeReader := Reading → Option (Node × Reading)

/-- Past one token. -/
def Reading.skip (r : Reading) : Reading := { r with tokens := r.tokens.tail }

/-- Whether the next token is one of the given ones. -/
def Reading.seesAny (r : Reading) (ts : List Token) : Bool := r.tokens.head?.any (ts.contains ·)

/-- A node unless one of the given tokens comes next, which means that there is none. -/
def unlessNext (ts : List Token) (read : NodeReader) : NodeReader := fun r =>
  if r.seesAny ts then some (.missing, r) else read r

/-- The tag and the anchor in front of a node, in either order. -/
def properties (r : Reading) : Option Text × Option Text × Reading :=
  match r.tokens with
  | .anchor a :: .tag t :: rest => (some t, some a, { r with tokens := rest })
  | .tag t :: .anchor a :: rest => (some t, some a, { r with tokens := rest })
  | .anchor a :: rest => (none, some a, { r with tokens := rest })
  | .tag t :: rest => (some t, none, { r with tokens := rest })
  | _ => (none, none, r)

/-- The short form of a tag: the tags of the standard have a name behind two exclamation marks. -/
def shortTag (tag : Text) : Text :=
  match Text.after? tag "!<tag:yaml.org,2002:" with
  | some name => "!!" ++ Text.trimEnd name ">"
  | none => tag

/-- Whether a scalar with the given meaning may have the given tag. -/
def fits (tag : Text) : Meaning → Bool
  | .null => tag == "!!null"
  | .bool _ => tag == "!!bool"
  | .int _ => tag == "!!int" || tag == "!!float"
  | .float _ => tag == "!!float"
  | .time => tag == "!!timestamp"
  | .merge => tag == "!!merge"
  | .text => false

/-- A node under a tag. A scalar tagged as a text stands for itself, and under another tag for what
its text means, quoted or not, if that fits the tag. Collections keep their sense under every
tag. -/
def tagged (tag : Option Text) (n : Node) : Node :=
  match tag.map shortTag, n with
  | some tag, .scalar text plain =>
    if tag == "!" then .scalar text plain
    else if tag == "!!str" then .scalar text false
    else if fits tag (meaning text) then .scalar text true
    else .senseless
  | _, n => n

/-! ### Mappings -/

/-- Whether a key says that the entries of its value are taken over. -/
def isMerge : Node → Bool
  | .scalar t plain => plain && t == "<<"
  | _ => false

/-- The name that a key stands for. -/
def keyName? : Node → Option Text
  | .scalar t _ => some t
  | _ => none

/-- Whether some key stands twice among entries. -/
def repeats (entries : List (Node × Node)) : Bool :=
  let names := entries.filterMap fun (k, _) => keyName? k
  names.eraseDups.length != names.length

/-- The lists of entries that a node has to offer for taking over: a mapping its own, a sequence of
mappings the ones of each. -/
def offers? : Node → Option (List (List (Node × Node)))
  | .mapping entries => some [entries]
  | .sequence items => items.mapM fun
      | .mapping entries => some entries
      | _ => none
  | _ => none

/-- Entries with those of `more` whose keys they do not have. -/
def takeOver (entries more : List (Node × Node)) : List (Node × Node) :=
  let names := entries.filterMap fun (k, _) => keyName? k
  entries ++ more.filter fun (k, _) => !((keyName? k).any names.contains)

/-- The mapping of some entries. An entry of its own comes before one taken over, and what is taken
over first before what is taken over later. -/
def mappingOf (entries : List (Node × Node)) : Node :=
  if repeats entries then .senseless
  else
    let (merges, own) := entries.partition fun (k, _) => isMerge k
    match merges.mapM fun (_, v) => offers? v with
    | some offers => .mapping (offers.flatten.foldl takeOver own)
    | none => .senseless

/-- A mapping whose entries have all been read. -/
def whole : Node × Reading → Node × Reading
  | (.mapping entries, r) => (mappingOf entries, r)
  | found => found

mutual

/-- A node. `inBlock` says whether a block collection may start, and `bare` whether the entries of a
sequence may stand at the indentation of the mapping around it. -/
def node? : Nat → Bool → Bool → NodeReader
  | 0, _, _, _ => none
  | fuel + 1, inBlock, bare, r =>
    match r.tokens with
    | .alias name :: rest =>
      (r.anchors.lookup name).map fun n => (n, { r with tokens := rest })
    | _ =>
      let (tag, anchor, r) := properties r
      let found : Option (Node × Reading) :=
        match r.tokens with
        | .blockEntry :: _ =>
          if bare then bareEntries? fuel r
          else if tag.isSome || anchor.isSome then some (.missing, r) else none
        | .scalar text plain :: _ => some (.scalar text plain, r.skip)
        | .flowSequence :: _ => flowItems? fuel true r.skip
        | .flowMapping :: _ => (flowEntries? fuel true r.skip).map whole
        | .blockSequence :: _ => if inBlock then blockItems? fuel r.skip else none
        | .blockMapping :: _ => if inBlock then (blockEntries? fuel r.skip).map whole else none
        | _ => if tag.isSome || anchor.isSome then some (.missing, r) else none
      found.map fun (n, r) =>
        let n := tagged tag n
        match anchor with
        | some a => (n, { r with anchors := (a, n) :: r.anchors })
        | none => (n, r)

/-- The entries of a block sequence up to its end. -/
def blockItems? : Nat → NodeReader
  | 0, _ => none
  | fuel + 1, r =>
    match r.tokens with
    | .blockEntry :: _ => do
      let (item, r) ← unlessNext [.blockEntry, .blockEnd] (node? fuel true false) r.skip
      let (more, r) ← blockItems? fuel r
      match more with
      | .sequence items => return (.sequence (item :: items), r)
      | _ => none
    | .blockEnd :: _ => some (.sequence [], r.skip)
    | _ => none

/-- The entries of a sequence at the indentation of the mapping around it. -/
def bareEntries? : Nat → NodeReader
  | 0, _ => none
  | fuel + 1, r =>
    match r.tokens with
    | .blockEntry :: _ => do
      let (item, r) ←
        unlessNext [.blockEntry, .key, .value, .blockEnd] (node? fuel true false) r.skip
      let (more, r) ← bareEntries? fuel r
      match more with
      | .sequence items => return (.sequence (item :: items), r)
      | _ => none
    | _ => some (.sequence [], r)

/-- The entries of a block mapping up to its end. -/
def blockEntries? : Nat → NodeReader
  | 0, _ => none
  | fuel + 1, r =>
    match r.tokens with
    | .key :: _ => do
      let (key, r) ← unlessNext [.key, .value, .blockEnd] (node? fuel true true) r.skip
      let (value, r) ←
        if r.seesAny [.value] then
          unlessNext [.key, .value, .blockEnd] (node? fuel true true) r.skip
        else some (.missing, r)
      let (more, r) ← blockEntries? fuel r
      match more with
      | .mapping entries => return (.mapping ((key, value) :: entries), r)
      | _ => none
    | .blockEnd :: _ => some (.mapping [], r.skip)
    | _ => none

/-- The items of a flow sequence up to its bracket. -/
def flowItems? : Nat → Bool → NodeReader
  | 0, _, _ => none
  | fuel + 1, first, r =>
    match r.tokens with
    | .flowSequenceEnd :: _ => some (.sequence [], r.skip)
    | _ => do
      let r ← if first then some r else if r.seesAny [.flowEntry] then some r.skip else none
      if r.seesAny [.flowSequenceEnd] then return (.sequence [], r.skip)
      let (item, r) ←
        if r.seesAny [.key] then do
          let (key, r) ←
            unlessNext [.value, .flowEntry, .flowSequenceEnd] (node? fuel false false) r.skip
          let (value, r) ←
            if r.seesAny [.value] then
              unlessNext [.flowEntry, .flowSequenceEnd] (node? fuel false false) r.skip
            else some (.missing, r)
          pure (mappingOf [(key, value)], r)
        else node? fuel false false r
      let (more, r) ← flowItems? fuel false r
      match more with
      | .sequence items => return (.sequence (item :: items), r)
      | _ => none

/-- The entries of a flow mapping up to its bracket. -/
def flowEntries? : Nat → Bool → NodeReader
  | 0, _, _ => none
  | fuel + 1, first, r =>
    match r.tokens with
    | .flowMappingEnd :: _ => some (.mapping [], r.skip)
    | _ => do
      let r ← if first then some r else if r.seesAny [.flowEntry] then some r.skip else none
      if r.seesAny [.flowMappingEnd] then return (.mapping [], r.skip)
      let (entry, r) ←
        if r.seesAny [.key] then do
          let (key, r) ←
            unlessNext [.value, .flowEntry, .flowMappingEnd] (node? fuel false false) r.skip
          let (value, r) ←
            if r.seesAny [.value] then
              unlessNext [.flowEntry, .flowMappingEnd] (node? fuel false false) r.skip
            else some (.missing, r)
          pure ((key, value), r)
        else do
          let (key, r) ← node? fuel false false r
          pure ((key, Node.missing), r)
      let (more, r) ← flowEntries? fuel false r
      match more with
      | .mapping entries => return (.mapping (entry :: entries), r)
      | _ => none

end

/-- The tokens behind the directives and the opening mark of a document. -/
def opened? (ts : List Token) : Option (List Token) :=
  match ts with
  | .documentStart :: rest => some rest
  | .directive :: rest =>
    match rest.dropWhile (· == .directive) with
    | .documentStart :: rest => some rest
    | _ => none
  | _ => some ts

/-- The first document of a YAML text, or `some none` when there is none. Every token is entered at
most a few levels deep, which bounds the depth of the tree. -/
def read? (t : Text) : Option (Option Node) :=
  let ts := (tokens t).dropWhile (· == .documentEnd)
  if ts.isEmpty then some none
  else do
    let ts ← opened? ts
    match ts with
    | [] => return some .missing
    | .documentStart :: _ => return some .missing
    | .documentEnd :: _ => return some .missing
    | .directive :: _ => return some .missing
    | _ =>
      let (n, r) ← node? (4 * ts.length + 4) true false { tokens := ts }
      if r.tokens.head? == some .fault then none else return some n

end ContractAudit.Yaml
