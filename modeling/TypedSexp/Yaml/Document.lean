import TypedSexp.Yaml.Base64
import TypedSexp.Yaml.Scalar
import TypedSexp.Yaml.Tree

namespace TypedSexp.Yaml

namespace Node

def line : Node → Nat
  | .scalar line .. => line
  | .sequence line .. => line
  | .mapping line .. => line
  | .alias line .. => line

def mergeTag : Text := utf8 "!!merge"

def tag : Node → Text
  | .scalar _ (some tag) _ _ => tag
  | .scalar _ none false _ => Tag.text.toText
  | .scalar _ none true text =>
      if text = utf8 "<<" then mergeTag else (Plain.resolve true text).tag.toText
  | .sequence _ tag _ => tag.getD (utf8 "!!seq")
  | .mapping _ tag _ => tag.getD (utf8 "!!map")
  | .alias .. => []

def isMerge : Node → Bool
  | .scalar line tag plain text =>
      text = utf8 "<<" && (Node.scalar line tag plain text).tag = mergeTag
  | _ => false

/-- Whether two keys are written alike. Collections are all taken to be. -/
def isSameKey : Node → Node → Bool
  | .scalar _ _ _ a, .scalar _ _ _ b => a = b
  | .alias _ a _, .alias _ b _ => a = b
  | .sequence .., .sequence .. => true
  | .mapping .., .mapping .. => true
  | _, _ => false

def keyText : Node → Text
  | .scalar _ _ _ text => text
  | .alias _ name _ => name
  | _ => []

def duplicates : List (Node × Node) → List Misfit
  | [] => []
  | (key, _) :: rest =>
      (rest.filter fun entry => key.isSameKey entry.1).map
        (fun entry => .duplicateKey entry.1.line entry.1.keyText key.line) ++ duplicates rest

end Node

def Tag.convert (tag : Tag) (text : Text) : Except Fault Scalar :=
  let value := if tag = .text then .text text else Plain.resolve (tag = .time) text
  let fault := Fault.plain (.otherTag value.tag.toText text tag.toText)
  if value.tag = tag then .ok value
  else match tag, value with
    | .float, .int n => if n = Int.bmod n UInt64.size then .ok (.float (.ofInt n)) else .error fault
    | _, _ => .error fault

def Scalar.ofTagged (tag text : Text) : Except Fault Scalar :=
  match Tag.ofText? tag with
  | some tag => tag.convert text
  | none =>
      if tag = utf8 "!!binary" then
        match Base64.decode? text with
        | some bytes => .ok (.text bytes)
        | none => .error (.plain .binary)
      else .ok (.text text)

namespace Document

structure Progress where
  decoded : Nat := 0
  aliased : Nat := 0
  misfits : List Misfit := []
deriving Repr

/-- Whether too much of a document comes from aliases: of small documents 99 parts of a hundred may,
of large ones ten. -/
def Progress.isExcessive (p : Progress) : Bool :=
  let low := 400000
  let range := 3600000
  let above := if p.decoded < low then 0
    else if low + range < p.decoded then range
    else p.decoded - low
  100 < p.aliased && 1000 < p.decoded &&
    p.decoded * (99 * range - 89 * above) < p.aliased * (100 * range)

abbrev Decode := StateT Progress (Except Fault)

def count (isAliased : Bool) : Decode Unit := do
  modify fun p => { p with
    decoded := p.decoded + 1
    aliased := if isAliased then p.aliased + 1 else p.aliased }
  if (← get).isExcessive then throw (.plain .aliasing)

def note (found : List Misfit) : Decode Unit :=
  modify fun p => { p with misfits := p.misfits ++ found }

abbrev Entries := List (Scalar × Scalar)

structure Scope where
  anchored : List (Nat × Node)
  active : List Nat := []

def Scope.target (scope : Scope) (name : Text) (number : Nat) : Except Fault (Node × Scope) :=
  if scope.active.contains number then .error (.plain (.recursiveAnchor name))
  else match scope.anchored.lookup number with
    | some node => .ok (node, { scope with active := number :: scope.active })
    | none => .error (.plain (.unknownAnchor name))

def Scope.keyTag (scope : Scope) : Node → Text
  | .alias _ _ number => ((scope.anchored.lookup number).map Node.tag).getD []
  | node => node.tag

def Scope.hasTextKeys (scope : Scope) (entries : List (Node × Node)) : Bool :=
  entries.all fun entry => [Tag.text.toText, Node.mergeTag].contains (scope.keyTag entry.1)

def Scope.isMergeable (scope : Scope) : Node → Bool
  | .mapping .. => true
  | .alias _ _ number =>
      match scope.anchored.lookup number with
      | some (.mapping ..) => true
      | _ => false
  | _ => false

def settingsKind : Text := utf8 "map[string]interface \x7b\x7d"

def keyKind : Text := utf8 "string"

def misfit (node : Node) (wanted : Text) : Misfit :=
  .otherKind node.line node.tag node.keyText wanted

mutual

def value (scope : Scope) : (fuel : Nat) → Node → Decode (Option Scalar)
  | 0, _ => throw (.plain .unknown)
  | fuel + 1, node => do
      count !scope.active.isEmpty
      match node with
      | .alias _ name number => do
          let (target, scope) ← scope.target name number
          value scope fuel target
      | .scalar line tag plain text =>
          return some (← Scalar.ofTagged (Node.scalar line tag plain text).tag text)
      | .sequence _ _ items => do
          values scope fuel items
          return some .list
      | .mapping _ _ entries => do
          match ← mapping scope (scope.hasTextKeys entries) none [] fuel entries with
          | some _ => return some .mapping
          | none => return none

def values (scope : Scope) : (fuel : Nat) → List Node → Decode Unit
  | 0, _ => throw (.plain .unknown)
  | _, [] => return ()
  | fuel + 1, node :: rest => do
      let _ ← value scope fuel node
      values scope fuel rest

def textKey (scope : Scope) : (fuel : Nat) → Node → Decode (Option Scalar)
  | 0, _ => throw (.plain .unknown)
  | fuel + 1, node => do
      count !scope.active.isEmpty
      match node with
      | .alias _ name number => do
          let (target, scope) ← scope.target name number
          textKey scope fuel target
      | .scalar line tag plain text =>
          match ← Scalar.ofTagged (Node.scalar line tag plain text).tag text with
          | .null => return none
          | .text t => return some (.text t)
          | _ => return some (.text text)
      | .sequence line tag items => do
          note [misfit (.sequence line tag items) keyKind]
          return none
      | .mapping line tag entries => do
          let found := Node.duplicates entries
          note (if found.isEmpty then [misfit (.mapping line tag entries) keyKind] else found)
          return none

def key (scope : Scope) (asText : Bool) : (fuel : Nat) → Node → Decode (Option Scalar)
  | 0, _ => throw (.plain .unknown)
  | fuel + 1, node => do
      if asText then textKey scope fuel node
      else match ← value scope fuel node with
        | some .list => throw (.plain .keyValue)
        | some .mapping => throw (.plain .keyValue)
        | found => return found

/-- Adds the entries of a mapping to others, without those that are merged in. Keys in `merged` are
passed over, and all that are added go there. -/
def plainEntries (scope : Scope) (asText : Bool) (merged : Option (List Scalar))
    (found : Entries) :
    (fuel : Nat) → List (Node × Node) → Decode (Entries × Option (List Scalar))
  | 0, _ => throw (.plain .unknown)
  | _, [] => return (found, merged)
  | fuel + 1, (keyNode, valueNode) :: rest => do
      if keyNode.isMerge then plainEntries scope asText merged found fuel rest
      else match ← key scope asText fuel keyNode with
        | none => plainEntries scope asText merged found fuel rest
        | some k =>
            if (merged.getD []).contains k then plainEntries scope asText merged found fuel rest
            else do
              let merged := merged.map (k :: ·)
              match ← value scope fuel valueNode with
              | some v => plainEntries scope asText merged (found ++ [(k, v)]) fuel rest
              | none => plainEntries scope asText merged found fuel rest

def mapping (scope : Scope) (asText : Bool) (merged : Option (List Scalar)) (found : Entries) :
    (fuel : Nat) → List (Node × Node) → Decode (Option (Entries × Option (List Scalar)))
  | 0, _ => throw (.plain .unknown)
  | fuel + 1, entries => do
      let twice := Node.duplicates entries
      if !twice.isEmpty then
        note twice
        return none
      else
        let (found, merged) ← plainEntries scope asText merged found fuel entries
        match entries.find? (·.1.isMerge) with
        | none => return some (found, merged)
        | some (_, source) => do
            let known ← match merged with
              | some known => pure known
              | none => keys scope fuel entries
            let (found, known) ← merge scope asText known found fuel source
            return some (found, merged.map fun _ => known)

def keys (scope : Scope) : (fuel : Nat) → List (Node × Node) → Decode (List Scalar)
  | 0, _ => throw (.plain .unknown)
  | _, [] => return []
  | fuel + 1, (keyNode, _) :: rest => do
      match ← value scope fuel keyNode with
      | some k => return k :: (← keys scope fuel rest)
      | none => keys scope fuel rest

def merge (scope : Scope) (asText : Bool) (known : List Scalar) (found : Entries) :
    (fuel : Nat) → Node → Decode (Entries × List Scalar)
  | 0, _ => throw (.plain .unknown)
  | fuel + 1, source =>
      match source with
      | .sequence _ _ items => mergeAll scope asText known found fuel items
      | source =>
          if scope.isMergeable source then mergeOne scope asText known found fuel source
          else throw (.plain .mergeValue)

def mergeAll (scope : Scope) (asText : Bool) (known : List Scalar) (found : Entries) :
    (fuel : Nat) → List Node → Decode (Entries × List Scalar)
  | 0, _ => throw (.plain .unknown)
  | _, [] => return (found, known)
  | fuel + 1, source :: rest => do
      if scope.isMergeable source then
        let (found, known) ← mergeOne scope asText known found fuel source
        mergeAll scope asText known found fuel rest
      else throw (.plain .mergeValue)

def mergeOne (scope : Scope) (asText : Bool) (known : List Scalar) (found : Entries) :
    (fuel : Nat) → Node → Decode (Entries × List Scalar)
  | 0, _ => throw (.plain .unknown)
  | fuel + 1, source => do
      count !scope.active.isEmpty
      match source with
      | .alias _ name number => do
          let (target, scope) ← scope.target name number
          mergeOne scope asText known found fuel target
      | .mapping _ _ entries => do
          match ← mapping scope asText (some known) found fuel entries with
          | some (found, merged) => return (found, merged.getD known)
          | none => return (found, known)
      | _ => throw (.plain .mergeValue)

end

def settings (scope : Scope) (fuel : Nat) (root : Node) : Decode Entries := do
  count false
  count false
  match root with
  | .mapping _ _ entries => do
      match ← mapping scope true none [] fuel entries with
      | some (found, _) => return found
      | none => return []
  | .scalar line tag plain text => do
      let node := Node.scalar line tag plain text
      match ← Scalar.ofTagged node.tag text with
      | .null => return []
      | _ => do
          note [misfit node settingsKind]
          return []
  | node => do
      note [misfit node settingsKind]
      return []

def named (entries : Entries) : List (Text × Scalar) :=
  entries.filterMap fun entry => match entry.1 with
    | .text t => some (t, entry.2)
    | _ => none

def read (document : Text) : Except Fault (List (Text × Scalar)) := do
  let stream := Stream.ofSource (.ofText document)
  match ← Tree.ofStream stream with
  | none => return []
  | some tree => do
      let fuel := (8 * stream.tokens.length + 16) * (tree.anchored.length + 1)
      let (found, progress) ← (settings { anchored := tree.anchored } fuel tree.root).run {}
      if progress.misfits.isEmpty then return named found else .error (.misfits progress.misfits)

end Document

end TypedSexp.Yaml
