import Mlxd.Resolve
import Mlxd.LoadSound
import Mlxd.Forward

/-!
# Loading the weights

The tensor files of a model directory are listed by its index, or found on the disk, and merged
into one map that is then checked. A directory loads exactly when its files are there and
disjoint and the map is complete; which entries an iteration over a map meets first decides
nothing but the message.
-/
namespace Mlxd.WeightsLoad

open Mlxd.Unicode Mlxd.Json Mlxd.Registry Mlxd.Resolve Mlxd.Model

/-! ## The files -/

def pathJoin (dir name : Bytes) : Bytes := dir ++ SLASH :: name

def indexPath (dir : Bytes) : Bytes := pathJoin dir (ascii "model.safetensors.index.json")

def weightMap (fs : FileSystem) (dir : Bytes) : Option Value :=
  objGet (fs.document (indexPath dir)) (ascii "weight_map")

/-- Long enough and with the ending of tensor files. -/
def tensorFile (name : Bytes) : Bool :=
  13 ≤ name.length && name.drop (name.length - 12) == ascii ".safetensors"

/-- What an index may name. -/
def indexFileOk (fname : Bytes) : Bool :=
  tensorFile fname && !fname.contains SLASH && !(ascii "..").isPrefixOf fname

/-- What stands behind the last slash. -/
def basename (path : Bytes) : Bytes := (path.reverse.takeWhile (· ≠ SLASH)).reverse

/-- `strcmp` for `qsort`. -/
def cmpStr (a b : Bytes) : Bool := decide (a ≤ b)

/-- The files of the index, each once; a value that is no string is passed over. -/
def indexFiles (dir : Bytes) : List (Bytes × Value) → List Bytes → Except Int (List Bytes)
  | [], files => .ok files
  | (_, val) :: rest, files =>
    match (getStr (some val)).map cstr with
    | none => indexFiles dir rest files
    | some fname =>
      if ¬ indexFileOk fname then .error (-2)
      else if files.any (basename · == fname) then indexFiles dir rest files
      else indexFiles dir rest (files ++ [pathJoin dir fname])

/-- The error 1 tells that there is no index. -/
def shardsFromIndex (fs : FileSystem) (dir : Bytes) : Except Int (List Bytes) :=
  if fs.mtime (indexPath dir) = none then .error 1
  else
    match weightMap fs dir with
    | some (.obj members) => do
      let files ← indexFiles dir members []
      if files = [] then .error (-2) else .ok (files.mergeSort cmpStr)
    | _ => .error (-2)

def shardsSingle (fs : FileSystem) (dir : Bytes) : Except Int (List Bytes) :=
  let path := pathJoin dir (ascii "model.safetensors")
  if fs.regular path then .ok [path] else .error (-1)

def shardsGlob (fs : FileSystem) (dir : Bytes) : Except Int (List Bytes) :=
  match fs.entries dir with
  | none => .error (-1)
  | some names =>
    let files := ((names.filter tensorFile).map (pathJoin dir)).filter fs.regular
    if files = [] then .error (-1) else .ok (files.mergeSort cmpStr)

/-- The paths, and whether the index named them. -/
def weightsEnumerateShards (fs : FileSystem) (dir : Bytes) : Except Int (List Bytes × Bool) :=
  match shardsFromIndex fs dir with
  | .ok paths => .ok (paths, true)
  | .error rc =>
    if rc = -2 then .error (-2)
    else
      match shardsSingle fs dir with
      | .ok paths => .ok (paths, false)
      | .error _ =>
        match shardsGlob fs dir with
        | .ok paths => .ok (paths, false)
        | .error _ => .error (-1)

/-! ## The map -/

structure Tensor (W : Type) where
  dtype : Dtype
  bytes : Nat
  array : W

/-- The entries of a map. -/
abbrev Params (W : Type) := List (Bytes × Tensor W)

/-- The disk and MLX: what iterating over the map of a file hands out, which insertions succeed,
the order in which a map is iterated, and whether the keys of the index get their memory. -/
structure Loader (W : Type) where
  fs : FileSystem
  read : Bytes → Option (Params W)
  inserts : Bytes → Bool
  order : Params W → Params W
  order_perm : ∀ params, (order params).Perm params
  keysRead : Bool

structure Weights (W : Type) where
  params : Params W
  count : Nat
  totalBytes : Nat

inductive LoadError where
  | notImplemented (label : String)
  | invalidIndex (dir : Bytes)
  | noFiles (dir : Bytes)
  | shardNotFound (path : Bytes)
  | failedToLoad (path : Bytes)
  | duplicate (key path : Bytes)
  | failedMerging (path : Bytes)
  | indexDeclares (key : Bytes)
  | missingLayer (layer : Nat)
  | missingEmbed (name : Bytes)
  | quantizedDtype (name : Bytes) (dtype : Dtype)
  | noQuantized (bits : Int)
  | orphanBase (suffix base : Bytes)
  | orphanSibling (suffix base sibling : Bytes)
  | expected (error : WeightError)

section Load

variable {W : Type} (L : Loader W)

/-- The error is the key that is there already, or none when the insertion failed. -/
def mergeMap (dst : Params W) : Params W → Except (Option Bytes) (Params W)
  | [] => .ok dst
  | (key, val) :: rest =>
    if (dst.lookup key).isSome then .error (some key)
    else if ¬ L.inserts key then .error none
    else mergeMap (dst ++ [(key, val)]) rest

def mergeShards (merged : Params W) : List Bytes → Except LoadError (Params W)
  | [] => .ok merged
  | path :: rest =>
    if ¬ L.fs.regular path then .error (.shardNotFound path)
    else
      match L.read path with
      | none => .error (.failedToLoad path)
      | some params =>
        match mergeMap L merged params with
        | .error (some key) => .error (.duplicate key path)
        | .error none => .error (.failedMerging path)
        | .ok merged => mergeShards merged rest

/-- The keys of the index, when they can be read. -/
def readIndexKeys (dir : Bytes) : Option (List Bytes) :=
  match weightMap L.fs dir with
  | some (.obj members) => if L.keysRead then some (members.map fun m => cstr m.1) else none
  | _ => none

/-! ## Validation -/

def mapHasKey (merged : Params W) (key : Bytes) : Bool := (merged.lookup key).isSome

def mapHasPrefix (merged : Params W) (stem : Bytes) : Bool :=
  (L.order merged).any fun e => stem.isPrefixOf e.1

def checkDeclared (merged : Params W) (key : Bytes) : Except LoadError Unit :=
  if mapHasKey merged key then .ok () else .error (.indexDeclares key)

/-- A prefix that does not fit its buffer is passed over. -/
def checkLayer (merged : Params W) (cfg : ModelConfig) (layer : Nat) : Except LoadError Unit :=
  let layerPrefix := tensorText cfg (some layer) []
  if NAME_SIZE ≤ layerPrefix.length then .ok ()
  else if mapHasPrefix L merged layerPrefix then .ok ()
  else .error (.missingLayer layer)

def checkEmbed (merged : Params W) (cfg : ModelConfig) : Except LoadError Unit :=
  let embedName := tensorText cfg none (ascii "embed_tokens.weight")
  if cfg.numHiddenLayers = 0 ∨ NAME_SIZE ≤ embedName.length then .ok ()
  else if mapHasKey merged embedName then .ok ()
  else .error (.missingEmbed embedName)

def dotScales (base : Bytes) : Bytes := base ++ ascii ".scales"

def dotBiases (base : Bytes) : Bytes := base ++ ascii ".biases"

/-- What stands before a suffix of seven bytes, when something does and it fits its buffer. -/
def tripletBase (suffix key : Bytes) : Option Bytes :=
  if 7 < key.length ∧ key.drop (key.length - 7) = suffix ∧ key.length - 7 < NAME_SIZE then
    some (key.take (key.length - 7))
  else none

/-- Whether a quantized weight was found. -/
def quantScan (merged : Params W) : Params W → Bool → Except LoadError Bool
  | [], found => .ok found
  | (key, _) :: rest, found =>
    match tripletBase (ascii ".scales") key with
    | none => quantScan merged rest found
    | some base =>
      match merged.lookup (dotWeight base) with
      | none => quantScan merged rest found
      | some t =>
        if t.dtype ≠ .uint32 then .error (.quantizedDtype (dotWeight base) t.dtype)
        else quantScan merged rest true

def checkQuantized (merged : Params W) (cfg : ModelConfig) : Except LoadError Unit :=
  if cfg.quantBits ≤ 0 then .ok ()
  else do
    let found ← quantScan merged (L.order merged) false
    if found then .ok () else .error (.noQuantized cfg.quantBits)

def checkSiblings (merged : Params W) (suffix other base : Bytes) : Except LoadError Unit :=
  if ¬ mapHasKey merged (dotWeight base) then .error (.orphanBase suffix base)
  else if ¬ mapHasKey merged (base ++ other) then .error (.orphanSibling suffix base other)
  else .ok ()

/-- Neither `.scales` nor `.biases` stand alone. -/
def checkOrphan (merged : Params W) (key : Bytes) : Except LoadError Unit :=
  match tripletBase (ascii ".scales") key, tripletBase (ascii ".biases") key with
  | some base, _ => checkSiblings merged (ascii ".scales") (ascii ".biases") base
  | none, some base => checkSiblings merged (ascii ".biases") (ascii ".scales") base
  | none, none => .ok ()

def dtypes (merged : Params W) : TensorMap := fun name => (merged.lookup name).map (·.dtype)

def checkExpected (merged : Params W) (cfg : ModelConfig) : Except LoadError Unit :=
  match weightsValidateExpected (dtypes merged) cfg (weightsExpectedNames cfg) with
  | .ok () => .ok ()
  | .error err => .error (.expected err)

def weightsValidate (merged : Params W) (cfg : ModelConfig) (indexKeys : Option (List Bytes)) :
    Except LoadError Unit := do
  (indexKeys.getD []).forM (checkDeclared merged)
  (List.range cfg.numHiddenLayers).forM (checkLayer L merged cfg)
  checkEmbed merged cfg
  checkQuantized L merged cfg
  (L.order merged).forM fun e => checkOrphan merged e.1
  checkExpected merged cfg

/-! ## The load -/

def deepseekLabel : Family → Option String
  | .deepseekV3 => some "deepseek_v3"
  | .deepseekV32 => some "deepseek_v32"
  | .deepseekV4 => some "deepseek_v4"
  | _ => none

/-- Number and size of the tensors. -/
def mapStats (params : Params W) : Nat × Nat :=
  (L.order params).foldl (fun acc e => (acc.1 + 1, acc.2 + e.2.bytes)) (0, 0)

def weightsLoad (dir : Bytes) (cfg : ModelConfig) : Except LoadError (Weights W) :=
  match deepseekLabel cfg.family with
  | some label => .error (.notImplemented label)
  | none =>
    match weightsEnumerateShards L.fs dir with
    | .error rc => .error (if rc = -2 then .invalidIndex dir else .noFiles dir)
    | .ok (paths, fromIndex) => do
      let merged ← mergeShards L [] paths
      weightsValidate L merged cfg (if fromIndex then readIndexKeys L dir else none)
      return ⟨merged, (mapStats L merged).1, (mapStats L merged).2⟩

end Load

end Mlxd.WeightsLoad
