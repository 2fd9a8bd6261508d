import TypedSexp.Yaml.Lexer

namespace TypedSexp.Yaml

/-- A node, with the line it starts on, counted from one, and the tag it was given, if any. -/
inductive Node where
  | scalar (line : Nat) (tag : Option Text) (plain : Bool) (text : Text)
  | sequence (line : Nat) (tag : Option Text) (items : List Node)
  | mapping (line : Nat) (tag : Option Text) (entries : List (Node × Node))
  | alias (line : Nat) (name : Text) (number : Nat)
deriving Repr, Inhabited

structure Tree where
  root : Node
  anchored : List (Nat × Node)
deriving Repr, Inhabited

namespace Tree

structure Reader where
  tokens : List Token
  fault : Option Fault
  handles : List (Text × Text) := []
  anchors : List (Text × Nat) := []
  anchored : List (Nat × Node) := []
deriving Repr

abbrev Read := StateT Reader (Except Fault)

def peek : Read Token := do
  let r ← get
  match r.tokens, r.fault with
  | token :: _, _ => return token
  | [], some fault => throw fault
  | [], none => return ⟨.streamEnd, ⟨0, 0, 0⟩⟩

def pop : Read Unit := modify fun r => { r with tokens := r.tokens.drop 1 }

def emptyNode (mark : Mark) : Node := .scalar (mark.line + 1) none true []

def tagOf? (handles : List (Text × Text)) (handle suffix : Text) : Option Text :=
  if handle.isEmpty then some suffix
  else match handles.lookup handle with
    | some start => if (start ++ suffix).isEmpty then none else some (start ++ suffix)
    | none => none

def repository : Text := utf8 "tag:yaml.org,2002:"

/-- The short form of a tag: two exclamation marks stand for the type repository. The lone
exclamation mark says no more than no tag does. -/
def shortTag? (tag : Text) : Option Text :=
  if tag = [33] then none
  else match Text.dropStart? repository tag with
    | some name => some (utf8 "!!" ++ name)
    | none => some tag

structure Properties where
  anchor : Option Text := none
  tag : Option (Text × Text × Mark) := none

def takeAnchor (p : Properties) : Read Properties := do
  match (← peek).kind with
  | .anchor name => do
      pop
      return { p with anchor := some name }
  | _ => return p

def takeTag (p : Properties) : Read Properties := do
  let token ← peek
  match token.kind with
  | .tag handle suffix => do
      pop
      return { p with tag := some (handle, suffix, token.mark) }
  | _ => return p

def takeProperties : Read Properties := do
  match (← peek).kind with
  | .anchor _ => takeTag (← takeAnchor {})
  | .tag _ _ => takeAnchor (← takeTag {})
  | _ => return {}

def enter (anchor : Option Text) : Read (Option Nat) :=
  match anchor with
  | none => return none
  | some name => do
      let r ← get
      let number := r.anchors.length
      set { r with anchors := (name, number) :: r.anchors }
      return some number

def leave (number : Option Nat) (node : Node) : Read Node := do
  match number with
  | none => return node
  | some number => do
      modify fun r => { r with anchored := (number, node) :: r.anchored }
      return node

def endsInBlock : Token.Kind → Bool
  | .key => true
  | .value => true
  | .blockEnd => true
  | _ => false

mutual

/-- Takes a node; `block` if it may be a block collection, `indentless` if it may be a sequence that
is indented no more than the mapping around it. -/
def takeNode (block indentless : Bool) : (fuel : Nat) → Read Node
  | 0 => throw (.plain .unknown)
  | fuel + 1 => do
      let first ← peek
      let start := first.mark
      let line := start.line + 1
      match first.kind with
      | .alias name => do
          pop
          match (← get).anchors.lookup name with
          | some number => return .alias line name number
          | none => throw (.plain (.unknownAnchor name))
      | _ => do
          let properties ← takeProperties
          let token ← peek
          let tag ← match properties.tag with
            | none => pure none
            | some (handle, suffix, mark) =>
                match tagOf? (← get).handles handle suffix with
                | some tag => pure (shortTag? tag)
                | none => throw (.inOrder start mark .undefinedHandle)
          let isBare := properties.anchor.isNone && properties.tag.isNone
          match token.kind, block, indentless with
          | .blockEntry, _, true => do
              let number ← enter properties.anchor
              leave number (.sequence line tag (← takeIndentless fuel))
          | .scalar text plain, _, _ => do
              let number ← enter properties.anchor
              pop
              leave number (.scalar line tag plain text)
          | .flowSequenceStart, _, _ => do
              let number ← enter properties.anchor
              pop
              leave number (.sequence line tag (← takeFlowItems token.mark true fuel))
          | .flowMappingStart, _, _ => do
              let number ← enter properties.anchor
              pop
              leave number (.mapping line tag (← takeFlowEntries token.mark true fuel))
          | .blockSequenceStart, true, _ => do
              let number ← enter properties.anchor
              pop
              leave number (.sequence line tag (← takeBlockItems token.mark fuel))
          | .blockMappingStart, true, _ => do
              let number ← enter properties.anchor
              pop
              leave number (.mapping line tag (← takeBlockEntries token.mark fuel))
          | _, _, _ =>
              if isBare then throw (.inOrder start token.mark .nodeContent)
              else do
                let number ← enter properties.anchor
                leave number (.scalar line tag true [])

def takeBlockItems (start : Mark) : (fuel : Nat) → Read (List Node)
  | 0 => throw (.plain .unknown)
  | fuel + 1 => do
      let token ← peek
      match token.kind with
      | .blockEntry => do
          pop
          let item ← match (← peek).kind with
            | .blockEntry => pure (emptyNode token.mark)
            | .blockEnd => pure (emptyNode token.mark)
            | _ => takeNode true false fuel
          return item :: (← takeBlockItems start fuel)
      | .blockEnd => do
          pop
          return []
      | _ => throw (.inOrder start token.mark .entryMark)

def takeIndentless : (fuel : Nat) → Read (List Node)
  | 0 => throw (.plain .unknown)
  | fuel + 1 => do
      let token ← peek
      match token.kind with
      | .blockEntry => do
          pop
          let next := (← peek).kind
          let item ←
            if next = .blockEntry || endsInBlock next then pure (emptyNode token.mark)
            else takeNode true false fuel
          return item :: (← takeIndentless fuel)
      | _ => return []

def takeBlockEntries (start : Mark) : (fuel : Nat) → Read (List (Node × Node))
  | 0 => throw (.plain .unknown)
  | fuel + 1 => do
      let token ← peek
      match token.kind with
      | .key => do
          pop
          let key ←
            if endsInBlock (← peek).kind then pure (emptyNode token.mark)
            else takeNode true true fuel
          let value ← takeBlockValue fuel
          return (key, value) :: (← takeBlockEntries start fuel)
      | .blockEnd => do
          pop
          return []
      | _ => throw (.inOrder start token.mark .keyMark)

def takeBlockValue : (fuel : Nat) → Read Node
  | 0 => throw (.plain .unknown)
  | fuel + 1 => do
      let token ← peek
      match token.kind with
      | .value => do
          pop
          if endsInBlock (← peek).kind then return emptyNode token.mark
          else takeNode true true fuel
      | _ => return emptyNode token.mark

def takeFlowItems (start : Mark) (isFirst : Bool) : (fuel : Nat) → Read (List Node)
  | 0 => throw (.plain .unknown)
  | fuel + 1 => do
      let token ← peek
      match token.kind, isFirst with
      | .flowSequenceEnd, _ => do
          pop
          return []
      | .flowEntry, false => do
          pop
          takeFlowItem start fuel
      | _, false => throw (.inOrder start token.mark .sequenceMark)
      | _, true => takeFlowItem start fuel

def takeFlowItem (start : Mark) : (fuel : Nat) → Read (List Node)
  | 0 => throw (.plain .unknown)
  | fuel + 1 => do
      let token ← peek
      match token.kind with
      | .flowSequenceEnd => do
          pop
          return []
      | .key => do
          pop
          let item ← takePair token.mark fuel
          return item :: (← takeFlowItems start false fuel)
      | _ => do
          let item ← takeNode false false fuel
          return item :: (← takeFlowItems start false fuel)

/-- Takes a key and a value that stand for a mapping in a sequence in brackets. A mark in the place
of the key is passed over. -/
def takePair (start : Mark) : (fuel : Nat) → Read Node
  | 0 => throw (.plain .unknown)
  | fuel + 1 => do
      let next ← peek
      let key ←
        if next.kind = .value || next.kind = .flowEntry || next.kind = .flowSequenceEnd then do
          pop
          pure (emptyNode next.mark)
        else takeNode false false fuel
      let token ← peek
      let value ← match token.kind with
        | .value => do
            pop
            let next := (← peek).kind
            if next = .flowEntry || next = .flowSequenceEnd then pure (emptyNode token.mark)
            else takeNode false false fuel
        | _ => pure (emptyNode token.mark)
      let _ ← peek
      return .mapping (start.line + 1) none [(key, value)]

def takeFlowEntries (start : Mark) (isFirst : Bool) : (fuel : Nat) → Read (List (Node × Node))
  | 0 => throw (.plain .unknown)
  | fuel + 1 => do
      let token ← peek
      match token.kind, isFirst with
      | .flowMappingEnd, _ => do
          pop
          return []
      | .flowEntry, false => do
          pop
          takeFlowKey start fuel
      | _, false => throw (.inOrder start token.mark .mappingMark)
      | _, true => takeFlowKey start fuel

def takeFlowKey (start : Mark) : (fuel : Nat) → Read (List (Node × Node))
  | 0 => throw (.plain .unknown)
  | fuel + 1 => do
      let token ← peek
      match token.kind with
      | .flowMappingEnd => do
          pop
          return []
      | .key => do
          pop
          let next ← peek
          let key ←
            if next.kind = .value || next.kind = .flowEntry || next.kind = .flowMappingEnd then
              pure (emptyNode next.mark)
            else takeNode false false fuel
          let value ← takeFlowValue fuel
          return (key, value) :: (← takeFlowEntries start false fuel)
      | _ => do
          let key ← takeNode false false fuel
          let value := emptyNode (← peek).mark
          return (key, value) :: (← takeFlowEntries start false fuel)

def takeFlowValue : (fuel : Nat) → Read Node
  | 0 => throw (.plain .unknown)
  | fuel + 1 => do
      let token ← peek
      match token.kind with
      | .value => do
          pop
          let next ← peek
          if next.kind = .flowEntry || next.kind = .flowMappingEnd then return emptyNode next.mark
          else takeNode false false fuel
      | _ => return emptyNode token.mark

end

def defaultHandles : List (Text × Text) := [(utf8 "!", utf8 "!"), (utf8 "!!", repository)]

def takeDirectives : (fuel : Nat) → (hasVersion : Bool) → Read Unit
  | 0, _ => throw (.plain .unknown)
  | fuel + 1, hasVersion => do
      let token ← peek
      let fault (problem : Problem) : Fault := .inOrder token.mark token.mark problem
      match token.kind with
      | .version major minor => do
          if hasVersion then throw (fault .duplicateVersion)
          if major ≠ 1 || minor ≠ 1 then throw (fault .otherVersion)
          pop
          takeDirectives fuel true
      | .handle handle start => do
          let r ← get
          if (r.handles.lookup handle).isSome then throw (fault .duplicateTag)
          set { r with handles := r.handles ++ [(handle, start)] }
          pop
          takeDirectives fuel hasVersion
      | _ => modify fun r => { r with handles := r.handles ++ defaultHandles }

def partsDocuments : Token.Kind → Bool
  | .version .. => true
  | .handle .. => true
  | .documentStart => true
  | .documentEnd => true
  | .streamEnd => true
  | _ => false

def takeRoot (fuel : Nat) : Read (Option Node) := do
  let first ← peek
  if first.kind = .streamEnd then return none
  takeDirectives fuel false
  let isMarked := partsDocuments first.kind && first.kind ≠ .documentEnd
  if isMarked then
    let token ← peek
    if token.kind ≠ .documentStart then
      throw (.inOrder token.mark token.mark .documentStart)
    pop
  let token ← peek
  let root ←
    if isMarked && partsDocuments token.kind then pure (emptyNode token.mark)
    else takeNode true false fuel
  let _ ← peek
  return some root

def ofStream (s : Stream) : Except Fault (Option Tree) := do
  let fuel := 4 * s.tokens.length + 8
  let (root, r) ← (takeRoot fuel).run { tokens := s.tokens, fault := s.fault }
  return root.map fun root => ⟨root, r.anchored⟩

end Tree

end TypedSexp.Yaml
