import MoMiner.Js.DecimalText
import MoMiner.Js.JsonText
import MoMiner.Pool.Connection
import MoMiner.Pool.Thresholds

/-!
# Exact words of a notification

The pre-pow words and the timestamp of a Kaspa notification are 64-bit integers, which a parsed
number does not hold. `parsePoolLine` of `pool/connection.js` parses such a line once more, keeping
the literals of its numbers, and leaves their decimal texts for the job builder.

**Main result (`kaspa_exact`).** Canonical literals below `2 ^ 64` become the bytes of the header as
they are, with the extranonce leading the nonce; any other literal makes the line malformed.
-/

namespace MoMiner.Pool

open MoMiner.Bytes MoMiner.Js

/-! ## The lines of a pool -/

/-- The reviver: a number is replaced by its literal. -/
def preserveJsonNumber : Reviver
  | .num _, some source => .str source
  | value, _ => value

/-- `String(value)` of a number that is a safe integer and not negative, and texts; else the empty
text. -/
def uint64Text : Option Json → String
  | some (.str s) => s
  | some (.num n) => (n.safeNat?.map toString).getD ""
  | _ => ""

def checkUint64Text (text : String) : Except String String := do
  throwIf (¬isCanonicalDecimal text ∨ 20 < text.length) "Invalid uint64 decimal"
  throwIf (2 ^ 64 - 1 < decimalValue text) "uint64 decimal is out of range"
  return text

def exactUint64Decimal (value : Option Json) : Except String String :=
  checkUint64Text (uint64Text value)

/-- The pre-pow words of a notification, when it has an array of them. -/
def prePowWords (json : Json) : Option (List Json) :=
  (json.items? "params").bind fun params => params[1]?.bind Json.arr?

/-- The message with the decimal texts of its words, where it is a notification with four words;
`exact` is the message with its literals. -/
def attachKaspaPrecisePrePow (json : Json) (exact : Option Json) : Except String Json :=
  if json.methodIs "mining.notify" ∧ (prePowWords json).isSome then do
    let some exact := exact | throw "Unexpected token"
    match prePowWords exact with
    | none => return json
    | some words => do
      let texts ← words.mapM fun word => exactUint64Decimal (some word)
      if texts.length < 4 then return json
      let timestamp ← exactUint64Decimal ((exact.items? "params").bind fun params => params[2]?)
      return (json.set "__kaspa_words" (.arr ((texts.take 4).map .str))).set "__kaspa_timestamp"
        (.str timestamp)
  else return json

def parsePoolLine (r : JsonReader) (message : List Char) : Option Json := do
  let json ← r.parse (fun value _ => value) message
  if json.isObject then
    (attachKaspaPrecisePrePow json (r.parse preserveJsonNumber message)).toOption
  else none

/-! ## Decimal texts -/

theorem toString_nat (n : ℕ) : toString n = String.ofList (Nat.toDigits 10 n) :=
  Nat.repr_eq_ofList_toDigits

theorem decimalValue_toString (n : ℕ) : decimalValue (toString n) = n := by
  rw [toString_nat, decimalValue_toDigits]

/-- The pattern is that of the decimal texts of the natural numbers. -/
theorem isCanonicalDecimal_iff {s : String} :
    isCanonicalDecimal s = true ↔ ∃ n : ℕ, s = toString n := by
  have htext (n : ℕ) : s = toString n ↔ s.toList = Nat.toDigits 10 n := by
    rw [toString_nat, ← String.toList_inj, String.toList_ofList]
  have hempty : s ≠ "" ↔ s.toList ≠ [] := by rw [ne_eq, ne_eq, ← String.toList_inj]; rfl
  have hzero : s = "0" ↔ s.toList = ['0'] := by rw [← String.toList_inj]; rfl
  simp only [htext, exists_toDigits_iff]
  rw [isCanonicalDecimal, isDigits]
  simp only [Bool.and_eq_true, Bool.or_eq_true, decide_eq_true_eq, List.all_eq_true, hempty, hzero]
  constructor
  · rintro ⟨⟨hne, hdigits⟩, h0 | hhead⟩
    · exact .inl h0
    · exact .inr ⟨hne, hdigits, fun c hc heq => hhead (heq ▸ hc)⟩
  · rintro (h0 | ⟨hne, hdigits, hhead⟩)
    · rw [h0]
      exact ⟨⟨by simp, List.forall_mem_singleton.mpr rfl⟩, .inl rfl⟩
    · exact ⟨⟨hne, hdigits⟩, .inr fun hc => hhead '0' hc rfl⟩

/-- A text that is an integer below `2 ^ 64`, as it is printed. -/
def Uint64Text (s : String) (n : ℕ) : Prop := n < 2 ^ 64 ∧ s = toString n

theorem checkUint64Text_eq_ok {s text : String} :
    checkUint64Text s = .ok text ↔ text = s ∧ ∃ n, Uint64Text s n := by
  simp only [checkUint64Text, Except.bind_eq_ok, throwIf_eq_ok, not_or, not_not,
    isCanonicalDecimal_iff]
  constructor
  · rintro ⟨-, ⟨⟨n, rfl⟩, -⟩, -, hle, h⟩
    rw [decimalValue_toString] at hle
    cases h
    exact ⟨rfl, n, by omega, rfl⟩
  · rintro ⟨rfl, n, hn, rfl⟩
    have hlength : (toString n).length ≤ 20 := by
      rw [toString_nat, String.length_ofList, Nat.length_toDigits_le_iff (by decide) (by decide)]
      omega
    exact ⟨(), ⟨⟨n, rfl⟩, by omega⟩, (), by rw [decimalValue_toString]; omega, rfl⟩

theorem uint64Decimal_text {s : String} {n : ℕ} (h : Uint64Text s n) :
    uint64Decimal (some (.str s)) = .ok n := by
  obtain ⟨hn, rfl⟩ := h
  have hcanonical := isCanonicalDecimal_iff.mpr ⟨n, rfl⟩
  simp only [uint64Decimal, unsignedDecimal, if_pos hcanonical, decimalValue_toString,
    Except.bind_eq_ok, throwIf_eq_ok]
  exact ⟨n, rfl, (), by omega, rfl⟩

/-! ## Literals -/

/-- A value of a line that the second parse gives as the text of an integer below `2 ^ 64`: its
literal, or a string. -/
def Literal (t : JsonText) (n : ℕ) : Prop :=
  ∃ s, (t = .num s ∨ t = .str s) ∧ Uint64Text s n

theorem numbersOnly_preserve : JsonText.NumbersOnly preserveJsonNumber where
  keeps value := by cases value <;> rfl
  scalar _ _ := rfl

theorem numbersOnly_keep : JsonText.NumbersOnly fun value _ => value where
  keeps _ := rfl
  scalar _ _ := rfl

theorem exactUint64Decimal_empty {value : Option Json} (hvalue : uint64Text value = "")
    (text : String) : exactUint64Decimal value ≠ .ok text := by
  rw [exactUint64Decimal, hvalue]
  intro h
  obtain ⟨n, -, hn⟩ := (checkUint64Text_eq_ok.mp h).2
  have hcanonical := isCanonicalDecimal_iff.mpr ⟨n, hn⟩
  exact absurd hcanonical (by decide)

theorem exactUint64Decimal_read {number : String → Number} {t : JsonText} {text : String} :
    exactUint64Decimal (some (t.read number preserveJsonNumber)) = .ok text ↔
      ∃ n, Literal t n ∧ text = toString n := by
  have htext {s : String} : exactUint64Decimal (some (.str s)) = .ok text ↔
      ∃ n, Uint64Text s n ∧ text = toString n := by
    rw [exactUint64Decimal, uint64Text, checkUint64Text_eq_ok]
    constructor
    · rintro ⟨rfl, n, hn⟩
      exact ⟨n, hn, hn.2⟩
    · rintro ⟨n, hn, rfl⟩
      exact ⟨hn.2.symm, n, hn⟩
  cases t with
  | num source =>
    rw [JsonText.read, preserveJsonNumber, htext]
    simp [Literal]
  | str s =>
    rw [JsonText.read_str numbersOnly_preserve, htext]
    simp [Literal]
  | _ =>
    rw [JsonText.read, numbersOnly_preserve.keeps]
    refine iff_of_false (exactUint64Decimal_empty rfl text) ?_
    rintro ⟨n, ⟨s, h | h, -⟩, -⟩ <;> cases h

/-! ## Notifications -/

/-- A line that is a `mining.notify` with an array as its second parameter. -/
structure Notifies (t : JsonText) (id : JsonText) (words rest : List JsonText) : Prop where
  method : t.get? "method" = some (.str "mining.notify")
  params : t.get? "params" = some (.arr (id :: .arr words :: rest))

section

variable {t id : JsonText} {words rest : List JsonText} {number : String → Number}
  {reviver : Reviver} (h : Notifies t id words rest) (hr : JsonText.NumbersOnly reviver)
include h hr

theorem Notifies.items? : (t.read number reviver).items? "params" =
    some ((id :: .arr words :: rest).map (JsonText.read number reviver)) := by
  rw [Json.items?, JsonText.read_get? hr, h.params, Option.map_some, Option.bind_some,
    JsonText.read_arr hr, Json.arr?]

theorem Notifies.methodIs : (t.read number reviver).methodIs "mining.notify" = true := by
  rw [Json.methodIs, JsonText.read_get? hr, h.method, Option.map_some, JsonText.read_str hr]
  rfl

theorem Notifies.prePowWords : prePowWords (t.read number reviver) =
    some (words.map (JsonText.read number reviver)) := by
  rw [Pool.prePowWords, h.items? hr, Option.bind_some, List.map_cons, List.map_cons,
    JsonText.read_arr hr]
  rfl

theorem Notifies.isObject : (t.read number reviver).isObject = true := by
  have hmethod : (t.read number reviver).get? "method" = _ := JsonText.read_get? hr t "method"
  rw [h.method] at hmethod
  cases hread : t.read number reviver with
  | obj fields => rfl
  | _ =>
    rw [hread] at hmethod
    cases hmethod

end

variable {t id : JsonText} {words rest : List JsonText} {number : String → Number}

/-- What is attached to a notification. -/
theorem Notifies.attach (h : Notifies t id words rest) (json : Json) (hjson : json.methodIs
    "mining.notify" = true ∧ (Pool.prePowWords json).isSome = true) (result : Json) :
    attachKaspaPrecisePrePow json (some (t.read number preserveJsonNumber)) = .ok result ↔
      ∃ texts, (words.map (JsonText.read number preserveJsonNumber)).mapM
          (fun word => exactUint64Decimal (some word)) = .ok texts ∧
        if texts.length < 4 then result = json
        else ∃ timestamp, exactUint64Decimal
            (rest.head?.map (JsonText.read number preserveJsonNumber)) = .ok timestamp ∧
          result = (json.set "__kaspa_words" (.arr ((texts.take 4).map .str))).set
            "__kaspa_timestamp" (.str timestamp) := by
  have hthird : (((t.read number preserveJsonNumber).items? "params").bind
      fun params => params[2]?) = rest.head?.map (JsonText.read number preserveJsonNumber) := by
    rw [h.items? numbersOnly_preserve, Option.bind_some]
    cases rest <;> rfl
  rw [attachKaspaPrecisePrePow, if_pos hjson]
  simp only [h.prePowWords numbersOnly_preserve, hthird, Except.bind_eq_ok]
  refine exists_congr fun texts => and_congr_right fun _ => ?_
  split_ifs with hfew
  · exact ⟨fun heq => (Except.ok.inj heq).symm, fun heq => congrArg _ heq.symm⟩
  · simp only [Except.bind_eq_ok]
    refine exists_congr fun timestamp => and_congr_right fun _ => ?_
    exact ⟨fun heq => (Except.ok.inj heq).symm, fun heq => congrArg _ heq.symm⟩

/-- A notification is parsed when its texts are attached. -/
theorem Notifies.parsePoolLine_eq (h : Notifies t id words rest) {r : JsonReader}
    {message : List Char} (ht : r.structureOf message = some t) : parsePoolLine r message =
      (attachKaspaPrecisePrePow (t.read r.number fun value _ => value)
        (some (t.read r.number preserveJsonNumber))).toOption := by
  have hparse (reviver : Reviver) : r.parse reviver message = some (t.read r.number reviver) := by
    rw [JsonReader.parse, ht, Option.map_some]
  rw [parsePoolLine, hparse, hparse, Option.bind_eq_bind, Option.bind_some,
    if_pos (h.isObject numbersOnly_keep)]

theorem Notifies.attach_keep (h : Notifies t id words rest) :
    ((t.read number fun value _ => value).methodIs "mining.notify" = true) ∧
      (Pool.prePowWords (t.read number fun value _ => value)).isSome = true :=
  ⟨h.methodIs numbersOnly_keep, by rw [h.prePowWords numbersOnly_keep, Option.isSome_some]⟩

/-- A notification of four words or more is parsed only if all its words and its timestamp are
literals of 64-bit integers. -/
theorem Notifies.literals (h : Notifies t id words rest) (hfour : 4 ≤ words.length)
    {r : JsonReader} {message : List Char} (ht : r.structureOf message = some t) {json : Json}
    (hparsed : parsePoolLine r message = some json) :
    (∀ word ∈ words, ∃ n, Literal word n) ∧
      ∃ time, rest.head? = some time ∧ ∃ n, Literal time n := by
  rw [h.parsePoolLine_eq ht, Except.toOption_eq_some, h.attach _ h.attach_keep] at hparsed
  obtain ⟨texts, htexts, hresult⟩ := hparsed
  have hpairs := forall₂_of_mapM_eq_ok htexts
  rw [if_neg (by rw [← hpairs.length_eq, List.length_map]; omega)] at hresult
  obtain ⟨timestamp, htime, -⟩ := hresult
  refine ⟨fun word hword => ?_, ?_⟩
  · have hread := List.mem_map_of_mem (f := JsonText.read r.number preserveJsonNumber) hword
    obtain ⟨text, -, htext⟩ := exists_of_mem_forall₂ hpairs.flip hread
    obtain ⟨n, hn, -⟩ := exactUint64Decimal_read.mp htext
    exact ⟨n, hn⟩
  · cases hhead : rest.head? with
    | none =>
      rw [hhead] at htime
      exact absurd htime (exactUint64Decimal_empty rfl timestamp)
    | some time =>
      rw [hhead] at htime
      obtain ⟨n, hn, -⟩ := exactUint64Decimal_read.mp htime
      exact ⟨time, rfl, n, hn⟩

/-- Canonical literals are attached as they are. -/
theorem Notifies.parse_exact {ns : List ℕ} {time : ℕ}
    (h : Notifies t id (ns.map fun n => .num (toString n)) (.num (toString time) :: rest))
    (hfour : 4 ≤ ns.length) (hns : ∀ n ∈ ns, n < 2 ^ 64) (htime : time < 2 ^ 64) {r : JsonReader}
    {message : List Char} (ht : r.structureOf message = some t) : parsePoolLine r message =
      some (((t.read r.number fun value _ => value).set "__kaspa_words"
        (.arr (((ns.map toString).take 4).map .str))).set "__kaspa_timestamp"
          (.str (toString time))) := by
  have hread (n : ℕ) (hn : n < 2 ^ 64) : exactUint64Decimal
      (some ((JsonText.num (toString n)).read r.number preserveJsonNumber)) =
        .ok (toString n) :=
    exactUint64Decimal_read.mpr ⟨n, ⟨_, .inl rfl, hn, rfl⟩, rfl⟩
  rw [h.parsePoolLine_eq ht, Except.toOption_eq_some, h.attach _ h.attach_keep]
  refine ⟨ns.map toString, ?_, ?_⟩
  · rw [List.map_map]
    exact mapM_map_eq_ok fun n hn => hread n (hns n hn)
  · rw [if_neg (by rw [List.length_map]; omega)]
    exact ⟨toString time, hread time htime, rfl⟩

/-! ## The job -/

theorem ofHex_le8Hex (value : ℕ) : ofHex (le8Hex value).toList = some (leBytes 8 value) := by
  rw [le8Hex, String.toList_ofList, ofHex_toHex]

theorem ofHex_words (words : List ℕ) :
    ofHex (String.join (words.map le8Hex)).toList = some (words.flatMap (leBytes 8)) := by
  induction words with
  | nil => rfl
  | cons word words ih =>
    rw [List.map_cons, String.join_cons, String.toList_append, List.flatMap_cons]
    exact ofHex_append (ofHex_le8Hex word) ih

theorem ofHex_repeat_zero (n : ℕ) :
    ofHex (repeatChar (2 * n) '0').toList = some (List.replicate n 0) := by
  rw [repeatChar, String.toList_ofList, ofHex_replicate_zero]

theorem ofHex_repeat_f (n : ℕ) :
    ofHex (repeatChar (2 * n) 'f').toList = some (List.replicate n 0xff) := by
  rw [repeatChar, String.toList_ofList]
  induction n with
  | zero => rfl
  | succ n ih =>
    rw [show 2 * (n + 1) = 2 * n + 1 + 1 by ring, List.replicate_succ, List.replicate_succ, ofHex,
      ih]
    rfl

/-- The bytes of the header: the words and the timestamp, and zeros to its end. -/
def headerBytes (words : List ℕ) (time : ℕ) : List UInt8 :=
  words.flatMap (leBytes 8) ++ leBytes 8 time ++ List.replicate 32 0 ++ List.replicate 8 0

/-- The job of a header whose nonce begins with an extranonce. -/
structure HeaderJob (job : PoolJob) (header extraNonce : List UInt8) : Prop where
  blob : ∃ blob, job.blob = some blob ∧ ofHex blob.toList = some header
  nonce : ∃ nonce, job.nonce = some (.text nonce) ∧
    ofHex nonce.toList = some (extraNonce ++ List.replicate (8 - extraNonce.length) 0)
  mask : ∃ mask, job.nicehashMask = some mask ∧ ofHex mask.toList =
    some (List.replicate extraNonce.length 0xff ++ List.replicate (8 - extraNonce.length) 0)
  offset : job.nonceoffset = some 72
  noncebytes : job.noncebytes = some 8

theorem length_headerBytes {words : List ℕ} (hfour : words.length = 4) (time : ℕ) :
    (headerBytes words time).length = 80 := by
  have hwords : (words.flatMap (leBytes 8)).length = 32 := by
    simp [List.length_flatMap, hfour]
  simp [headerBytes, hwords]

/-- The seed and the mask lead with the extranonce. -/
theorem ofHex_seed {xn : String} {bytes : List UInt8} (hxn : ofHex xn.toList = some bytes)
    (hlength : bytes.length ≤ 8) :
    ofHex (slice 0 16 (xn ++ repeatChar 16 '0')).toList =
        some (bytes ++ List.replicate (8 - bytes.length) 0) ∧
      ofHex (prefixMask (min (xn.length / 2) 8) 16).toList =
        some (List.replicate bytes.length 0xff ++ List.replicate (8 - bytes.length) 0) := by
  have hchars : xn.toList.length = 2 * bytes.length := length_of_ofHex hxn
  constructor
  · have hslice : (slice 0 16 (xn ++ repeatChar 16 '0')).toList =
        xn.toList ++ List.replicate (2 * (8 - bytes.length)) '0' := by
      rw [slice, String.toList_ofList, String.toList_append, repeatChar, String.toList_ofList,
        List.drop_zero, List.take_append, List.take_of_length_le (by omega), List.take_replicate]
      congr 2
      omega
    rw [hslice]
    exact ofHex_append hxn (ofHex_replicate_zero _)
  · have hcount : min (xn.length / 2) 8 = bytes.length := by
      rw [← String.length_toList]
      omega
    have hmask : (prefixMask bytes.length 16).toList =
        (repeatChar (2 * bytes.length) 'f').toList ++
          List.replicate (2 * (8 - bytes.length)) '0' := by
      rw [prefixMask, padEnd, String.toList_ofList]
      congr 2
      rw [repeatChar, String.length_ofList, List.length_replicate]
      omega
    rw [hcount, hmask]
    exact ofHex_append (ofHex_repeat_f _) (ofHex_replicate_zero _)

theorem isObject_set {json : Json} (h : json.isObject = true) (key : String) (entry : Json) :
    (json.set key entry).isObject = true := by
  cases json with
  | obj fields => rfl
  | _ => cases h

/-- The job builder on texts of 64-bit integers. -/
theorem kaspaNotifyJob_exact (host : Host) (config : PoolConfig) (dialect : Dialect)
    (j : JobState) {json value : Json} {jobId : Scalar} {p : List Json}
    (hid : poolJobId (some value) = some jobId) {words : List ℕ} {time : ℕ}
    (hitems : json.items? "__kaspa_words" = some ((words.map toString).map .str))
    (hstamp : json.get? "__kaspa_timestamp" = some (.str (toString time)))
    (hfour : words.length = 4) (hwords : ∀ n ∈ words, n < 2 ^ 64) (htime : time < 2 ^ 64)
    {bytes : List UInt8} (hxn : ofHex (poolExtraNonce j).toList = some bytes)
    (hlength : bytes.length ≤ 8) :
    ∃ job, kaspaNotifyJob host config dialect j json (value :: p) = .ok (some job) ∧
      HeaderJob job (headerBytes words time) bytes := by
  have hword (n : ℕ) (hn : n < 2 ^ 64) : uint64Decimal (some (.str (toString n))) = .ok n :=
    uint64Decimal_text ⟨hn, rfl⟩
  obtain ⟨a, b, c, d, rfl⟩ := List.length_eq_four.mp hfour
  simp only [List.forall_mem_cons, List.not_mem_nil, false_implies, implies_true, and_true]
    at hwords
  obtain ⟨ha, hb, hc, hd⟩ := hwords
  simp only [List.map_cons, List.map_nil] at hitems
  have hblob := ofHex_append (ofHex_append (ofHex_append (ofHex_words [a, b, c, d])
    (ofHex_le8Hex time)) (ofHex_repeat_zero 32)) (ofHex_repeat_zero 8)
  obtain ⟨hseed, hmask⟩ := ofHex_seed hxn hlength
  have hmapM : ([Json.str (toString a), .str (toString b), .str (toString c),
      .str (toString d)].mapM fun w => uint64Decimal (some w)) = .ok [a, b, c, d] := by
    simp only [List.mapM_cons, List.mapM_nil, hword a ha, hword b hb, hword c hc, hword d hd]
    rfl
  simp only [kaspaNotifyJob, List.getElem?_cons_zero, hid, hitems, hstamp, hmapM,
    hword time htime]
  refine ⟨_, rfl, ⟨_, rfl, ?_⟩, ⟨_, rfl, hseed⟩, ⟨_, rfl, hmask⟩, rfl, rfl⟩
  simpa only [String.toList_append, headerBytes] using hblob

/-- What is attached changes no other property. -/
theorem kaspaParams_attached {t id : JsonText} {words rest : List JsonText} {time : JsonText}
    {number : String → Number} (h : Notifies t id words (time :: rest)) (hfour : 4 ≤ words.length)
    (texts stamp : Json) :
    kaspaParams (((t.read number fun value _ => value).set "__kaspa_words" texts).set
        "__kaspa_timestamp" stamp) =
      some ((id :: .arr words :: time :: rest).map
        (JsonText.read number fun value _ => value)) := by
  have hmethod : (((t.read number fun value _ => value).set "__kaspa_words" texts).set
      "__kaspa_timestamp" stamp).methodIs "mining.notify" = true := by
    rw [Json.methodIs, Json.get?_set_of_ne (by decide), Json.get?_set_of_ne (by decide)]
    exact h.methodIs numbersOnly_keep
  have hitems : (((t.read number fun value _ => value).set "__kaspa_words" texts).set
      "__kaspa_timestamp" stamp).items? "params" =
        some ((id :: .arr words :: time :: rest).map
          (JsonText.read number fun value _ => value)) := by
    rw [Json.items?, Json.get?_set_of_ne (by decide), Json.get?_set_of_ne (by decide)]
    exact h.items? numbersOnly_keep
  have hwords : (JsonText.arr words).read number (fun value _ => value) =
      .arr (words.map (JsonText.read number fun value _ => value)) :=
    JsonText.read_arr numbersOnly_keep words
  rw [kaspaParams, notifyParams, if_pos hmethod, hitems]
  simp [hwords, Json.arr?, hfour]

/-- **Kaspa headers are exact.** A notification of four words or more is parsed only if its words
and its timestamp are literals of 64-bit integers. Canonical ones become the bytes of the header,
and the nonce leads with the extranonce. -/
theorem kaspa_exact (r : JsonReader) {message : List Char} {t id : JsonText}
    {words rest : List JsonText} (ht : r.structureOf message = some t)
    (h : Notifies t id words rest) (hfour : 4 ≤ words.length) :
    (∀ json, parsePoolLine r message = some json →
      (∀ word ∈ words, ∃ n, Literal word n) ∧
        ∃ time, rest.head? = some time ∧ ∃ n, Literal time n) ∧
    ∀ (ns : List ℕ) (time : ℕ) (jobId : Scalar),
      words = ns.map (fun n => .num (toString n)) → rest.head? = some (.num (toString time)) →
      (∀ n ∈ ns, n < 2 ^ 64) → time < 2 ^ 64 →
      poolJobId (some (id.read r.number fun value _ => value)) = some jobId →
      (headerBytes (ns.take 4) time).length = 80 ∧
        ∃ json p, parsePoolLine r message = some json ∧ kaspaParams json = some p ∧
          ∀ host config dialect j bytes, ofHex (poolExtraNonce j).toList = some bytes →
            bytes.length ≤ 8 → ∃ job, kaspaNotifyJob host config dialect j json p = .ok (some job) ∧
              HeaderJob job (headerBytes (ns.take 4) time) bytes := by
  refine ⟨fun json => h.literals hfour ht, ?_⟩
  rintro ns time jobId rfl hrest hns htime hid
  obtain ⟨rest, rfl⟩ : ∃ rest', rest = .num (toString time) :: rest' := by
    cases rest with
    | nil => cases hrest
    | cons first rest' => exact ⟨rest', by rw [Option.some.inj hrest]⟩
  have hfour' : 4 ≤ ns.length := by rwa [List.length_map] at hfour
  have htake : (ns.take 4).length = 4 := by rw [List.length_take]; omega
  refine ⟨length_headerBytes htake time, _, _, h.parse_exact hfour' hns htime ht,
    kaspaParams_attached h hfour _ _, fun host config dialect j bytes hxn hlength => ?_⟩
  refine kaspaNotifyJob_exact host config dialect j hid ?_ ?_ htake
    (fun n hn => hns n (List.mem_of_mem_take hn)) htime hxn hlength
  · rw [Json.items?, Json.get?_set_of_ne (by decide),
      Json.get?_set_self (h.isObject numbersOnly_keep)]
    simp only [Option.bind_some, Json.arr?, List.map_take]
  · exact Json.get?_set_self (isObject_set (h.isObject numbersOnly_keep) _ _) _ _

/-! ## A notification -/

def largeLine : List Char :=
  ("\x7b\"method\":\"mining.notify\",\"params\":" ++
    "[\"1\",[18446744073709551615,1,2,3],1700000000000]\x7d").toList

def largeText : JsonText :=
  .obj [("method", .str "mining.notify"),
    ("params", .arr [.str "1",
      .arr (([2 ^ 64 - 1, 1, 2, 3] : List ℕ).map fun n => .num (toString n)),
      .num (toString 1700000000000)])]

/-- The largest word is read as `2 ^ 64` by a parser that rounds. -/
def largeReader : JsonReader where
  structureOf message := if message = largeLine then some largeText else none
  number s := .finite (if decimalValue s = 2 ^ 64 - 1 then 2 ^ 64 else decimalValue s)

/-- A job of the largest word, for an extranonce of two bytes. -/
theorem kaspa_exact_large : ∃ json p, parsePoolLine largeReader largeLine = some json ∧
    kaspaParams json = some p ∧ ∃ job, kaspaNotifyJob exampleHost { login := "" } .kaspa
      { extraNonce := some "56e0" } json p = .ok (some job) ∧
      HeaderJob job (headerBytes [2 ^ 64 - 1, 1, 2, 3] 1700000000000) [0x56, 0xe0] := by
  have hnotifies : Notifies largeText (.str "1")
      (([2 ^ 64 - 1, 1, 2, 3] : List ℕ).map fun n => .num (toString n))
      [.num (toString 1700000000000)] := ⟨rfl, rfl⟩
  obtain ⟨-, json, p, hparsed, hp, hjob⟩ := (kaspa_exact largeReader (if_pos rfl) hnotifies
    (by decide)).2 [2 ^ 64 - 1, 1, 2, 3] 1700000000000 (.text "1") rfl rfl (by decide) (by decide)
    rfl
  exact ⟨json, p, hparsed, hp, hjob _ _ _ _ _ (by decide) (by decide)⟩

end MoMiner.Pool
