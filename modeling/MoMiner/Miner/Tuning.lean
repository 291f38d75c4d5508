import MoMiner.Js.Text
import MoMiner.Miner.PearlShape

/-!
# Tuning objects

The tuning of a device is a partial object with the fields of `gpu-tuning.js`. Which fields there
are, and which values they take, depends on the algorithm. `validateTuning` checks an object that
comes from a configuration or from a device text.
-/

namespace MoMiner.Miner

open MoMiner.Js

/-! ## Fields -/

/-- The tuning fields, in the order in which they are printed. -/
inductive Field
  | intensity | seedWorkgroup | m | slots | workgroup
  | seedBlocks | dagWorkgroup | dagChunk | prehashWorkgroup
  | tableChunk | searchMode | n | k | rank | cacheBlock | tile
  | compactWorkgroup | scatterWorkgroup | layout
  deriving DecidableEq

def tuningFieldOrder : List Field :=
  [.intensity, .seedWorkgroup, .m, .slots, .workgroup,
   .seedBlocks, .dagWorkgroup, .dagChunk, .prehashWorkgroup,
   .tableChunk, .searchMode, .n, .k, .rank, .cacheBlock, .tile,
   .compactWorkgroup, .scatterWorkgroup, .layout]

def Field.name : Field → String
  | .intensity => "intensity"
  | .seedWorkgroup => "seed_workgroup"
  | .m => "m"
  | .slots => "slots"
  | .workgroup => "workgroup"
  | .seedBlocks => "seed_blocks"
  | .dagWorkgroup => "dag_workgroup"
  | .dagChunk => "dag_chunk"
  | .prehashWorkgroup => "prehash_workgroup"
  | .tableChunk => "table_chunk"
  | .searchMode => "search_mode"
  | .n => "n"
  | .k => "k"
  | .rank => "rank"
  | .cacheBlock => "cache_block"
  | .tile => "tile"
  | .compactWorkgroup => "compact_workgroup"
  | .scatterWorkgroup => "scatter_workgroup"
  | .layout => "layout"

def Field.ofName? (name : String) : Option Field := tuningFieldOrder.find? (·.name = name)

def progpowAlgos : List String := ["kawpow", "firopow", "evrprogpow", "meowpow"]

def fishhashAlgos : List String := ["fishhash", "karlsenhashv2"]

def fixedIntensityAlgos : List String := ["c30", "equihash192_7", "zhash"]

def algoFields : List (String × List Field) :=
  ([("cn/gpu", [.intensity]),
   ("c29", [.seedWorkgroup, .seedBlocks]),
   ("c30", [.intensity]),
   ("etchash", [.intensity, .dagWorkgroup, .dagChunk]),
   ("octopus", [.intensity]),
   ("autolykos2", [.intensity, .workgroup, .prehashWorkgroup, .tableChunk, .searchMode]),
   ("hoohash", [.intensity, .workgroup]),
   ("walahash", [.intensity]),
   ("xelishashv3", [.intensity]),
   ("nexapow", [.intensity]),
   ("equihash192_7", [.intensity]),
   ("zhash", [.intensity]),
   ("verthash", [.intensity]),
   ("pearlhash", [.m, .n, .k, .rank, .cacheBlock, .tile]),
   ("zelhash", [.slots]),
   ("beamhash3", [.workgroup, .compactWorkgroup, .scatterWorkgroup, .layout])] :
    List (String × List Field)) ++
  progpowAlgos.map (·, [.intensity, .workgroup, .dagWorkgroup, .dagChunk]) ++
  fishhashAlgos.map (·, [.intensity, .workgroup, .searchMode])

/-- The fields of an algorithm; without an algorithm, those of all. -/
def allowedFields (algo : String) : List Field :=
  if algo = "" then algoFields.flatMap (·.2) else (algoFields.lookup algo).getD []

/-- The texts that are tuning values. -/
inductive Choice
  | auto | scalar | cooperative | compact | full
  | tile1x1 | tile2x2 | tile2x4 | tile4x2 | tile4x4 | tile8x2
  deriving DecidableEq

def Choice.text : Choice → String
  | .auto => "auto"
  | .scalar => "scalar"
  | .cooperative => "cooperative"
  | .compact => "compact"
  | .full => "full"
  | .tile1x1 => "1x1"
  | .tile2x2 => "2x2"
  | .tile2x4 => "2x4"
  | .tile4x2 => "4x2"
  | .tile4x4 => "4x4"
  | .tile8x2 => "8x2"

/-- The texts that a field takes, if it takes texts. -/
def Field.choices : Field → Option (List Choice)
  | .searchMode => some [.auto, .scalar, .cooperative]
  | .layout => some [.auto, .compact, .full]
  | .tile => some [.auto, .tile1x1, .tile2x2, .tile2x4, .tile4x2, .tile4x4, .tile8x2]
  | _ => none

def Field.minimum : Field → ℕ
  | .dagChunk | .tableChunk | .cacheBlock => 0
  | _ => 1

/-- The field that the short form of a device text sets. -/
def primaryTuningField (algo : String) : Field :=
  (([("c29", .seedWorkgroup), ("pearlhash", .m), ("zelhash", .slots), ("beamhash3", .workgroup)] :
    List (String × Field)).lookup algo).getD .intensity

/-! ## Values -/

inductive TuningValue
  | int (n : ℕ)
  | choice (c : Choice)
  deriving DecidableEq

/-- A partial tuning object. -/
abbrev Tuning := Field → Option TuningValue

def Tuning.empty : Tuning := fun _ => none

/-- `{...base, ...top}`. -/
def Tuning.merge (base top : Tuning) : Tuning := fun f => (top f).or (base f)

def Tuning.set (t : Tuning) (f : Field) (v : TuningValue) : Tuning := Function.update t f (some v)

/-- The number in a field. -/
def Tuning.int? (t : Tuning) (f : Field) : Option ℕ :=
  (t f).bind fun | .int n => some n | .choice _ => none

/-! ## Validation -/

def validateInteger (field : Field) (value : Json) (label : String) : Except String ℕ :=
  match decimalNumber? value with
  | none => .error (label ++ " must be a base-10 integer")
  | some number =>
    match number.safeNat?.filter fun v => field.minimum ≤ v ∧ v ≤ 0xffffffff with
    | none => .error (label ++ " must be an integer between " ++ toString field.minimum ++
        " and 4294967295")
    | some v => do
      throwIf (field = .seedWorkgroup ∧ v ∉ [64, 128, 256]) (label ++ " must be 64, 128, or 256")
      throwIf (field = .seedBlocks ∧ v ∉ [4, 8, 16, 32]) (label ++ " must be 4, 8, 16, or 32")
      throwIf (field = .slots ∧ v % 16 ≠ 0) (label ++ " must be a multiple of 16")
      return v

/-- The work group sizes of a field for an algorithm, where they are listed. -/
def workgroupChoices (algo : String) : List (Field × List ℕ) :=
  (if algo = "autolykos2" then [(.workgroup, [32, 64, 128, 256])]
   else if algo = "hoohash" then [(.workgroup, [64, 128, 256])]
   else if algo = "pearlhash" then [(.workgroup, [32, 64, 128, 256])]
   else if algo ∈ progpowAlgos then [(.workgroup, [64, 128, 256, 512])]
   else if algo ∈ fishhashAlgos then [(.workgroup, [64, 128, 256, 512])]
   else []) ++
  [(.dagWorkgroup, [32, 64, 128, 256, 512]), (.prehashWorkgroup, [32, 64, 128, 256])]

def listed (values : List ℕ) : String := ", ".intercalate (values.map toString)

def checkWorkgroup (t : Tuning) (context : String) (choice : Field × List ℕ) : Except String Unit :=
  throwIf ((t.int? choice.1).any (· ∉ choice.2))
    (context ++ "." ++ choice.1.name ++ " must be one of " ++ listed choice.2)

def checkBeamWorkgroup (t : Tuning) (context : String) (field : Field) : Except String Unit :=
  let maximum := if field = .compactWorkgroup then 512 else 1024
  throwIf ((t.int? field).any fun v => v < 16 || maximum < v || v % 16 ≠ 0)
    (context ++ "." ++ field.name ++ " must be a multiple of 16 between 16 and " ++
      toString maximum)

def checkPearlMatrix (t : Tuning) (context : String) (field : Field) : Except String Unit := do
  throwIf ((t.int? field).any (2 ^ 24 < ·))
    (context ++ "." ++ field.name ++ " must be at most 16777216")
  throwIf ((t.int? field).any fun v => v < 128 || v % 32 ≠ 0)
    (context ++ "." ++ field.name ++ " must be at least 128 and a multiple of 32")

def checkPearlTuning (t : Tuning) (context : String) : Except String Unit := do
  checkPearlMatrix t context .m
  checkPearlMatrix t context .n
  throwIf ((t.int? .k).any (2 ^ 16 < ·)) (context ++ ".k must be at most 65536")
  throwIf ((t.int? .k).any fun v => v < 1024 || v % 64 ≠ 0)
    (context ++ ".k must be at least 1024 and a multiple of 64")
  throwIf ((t.int? .rank).any fun v => v < 128 || 1024 < v || (v &&& (v - 1)) ≠ 0)
    (context ++ ".rank must be a power of two between 128 and 1024")
  throwIf ((t.int? .k).any fun k => (t.int? .rank).any fun r => k < 16 * r || 4 * r * r < k)
    (context ++ ".k must be between 16*rank and 4*rank^2")

/-- The checks of a whole tuning object. -/
def checkTuning (algo : String) (t : Tuning) (context : String) : Except String Unit := do
  throwIf (algo ∈ fixedIntensityAlgos ∧ (t.int? .intensity).any (· ≠ 1))
    (context ++ ".intensity must be 1 for " ++ algo)
  (workgroupChoices algo).forM (checkWorkgroup t context)
  if algo = "beamhash3" then
    [.workgroup, .compactWorkgroup, .scatterWorkgroup].forM (checkBeamWorkgroup t context)
  if algo = "pearlhash" then checkPearlTuning t context

def validateValue (field : Field) (value : Json) (label : String) : Except String TuningValue :=
  match field.choices with
  | none => do return .int (← validateInteger field value label)
  | some choices =>
    match value.str?.bind fun text => choices.find? (·.text = toLowerCase text) with
    | none => .error (label ++ " must be one of " ++ ", ".intercalate (choices.map Choice.text))
    | some c => .ok (.choice c)

def validateField (algo context : String) (t : Tuning) (entry : String × Json) :
    Except String Tuning :=
  match (Field.ofName? entry.1).filter (· ∈ allowedFields algo) with
  | none => .error (context ++ "." ++ entry.1 ++ " is not supported for " ++ algo)
  | some field => do
    return t.set field (← validateValue field entry.2 (context ++ "." ++ entry.1))

def validateTuning (algo : String) (tuning : Json) (context : String) : Except String Tuning :=
  match tuning with
  | .obj fields => do
    let t ← fields.foldlM (validateField algo context) Tuning.empty
    checkTuning algo t context
    return t
  | _ => .error (context ++ " must be an object")

end MoMiner.Miner
