import Mathlib.NumberTheory.LegendreSymbol.JacobiSymbol
import MoMiner.Nexapow.Inverse

/-!
# The quadratic residue test

Whether a field element is a square is decided by the binary algorithm for the Jacobi symbol: the
first number is halved while it is even, the numbers are put in order, and the smaller one is
subtracted. The sign is that of the symbol that is left. Another test raises to a fixed power.

Main result: `quadratic_residue_exact`.
-/

namespace MoMiner.Nexapow

open MoMiner.Limbs

open scoped NumberTheorySymbols

local instance factFieldPrimeResidue : Fact fieldPrime.Prime := ⟨fieldPrime_prime⟩

/-- Shift limbs right by one bit, from the highest limb on: the bit that leaves a limb goes to the
top of the one below. -/
def shiftLimbs (l : List UInt32) : UInt32 × List UInt32 :=
  l.foldr (fun w r => (w &&& 1, ((w >>> 1) ||| (r.1 <<< 31)) :: r.2)) (0, [])

theorem length_shiftLimbs (l : List UInt32) : (shiftLimbs l).2.length = l.length := by
  induction l with
  | nil => rfl
  | cons w l ih => rw [shiftLimbs, List.foldr_cons, List.length_cons, ← shiftLimbs, ih,
      List.length_cons]

def npShiftRight (value : U256) : U256 :=
  ⟨(shiftLimbs value.limbs).2, (length_shiftLimbs _).trans value.length_eq⟩

/-- The state of the loop. -/
structure JacobiState where
  a : U256
  n : U256
  negative : Bool

/-- Halve the first number while it is even. It fails when it runs out of fuel. -/
def halve : ℕ → JacobiState → Option JacobiState
  | 0, _ => none
  | fuel + 1, s =>
    if limbAt s.a 0 &&& 1 = 0 then
      let mod8 := limbAt s.n 0 &&& 7
      halve fuel { s with
        a := npShiftRight s.a
        negative := if mod8 = 3 ∨ mod8 = 5 then !s.negative else s.negative }
    else some s

/-- Put the larger number first. -/
def swapSmaller (s : JacobiState) : JacobiState :=
  if npCmp s.a s.n < 0 then
    { a := s.n
      n := s.a
      negative := if limbAt s.n 0 &&& 3 = 3 ∧ limbAt s.a 0 &&& 3 = 3 then !s.negative
        else s.negative }
  else s

/-- The loop. It fails when it runs out of fuel. -/
def jacobiLoop : ℕ → JacobiState → Option JacobiState
  | 0, _ => none
  | fuel + 1, s =>
    if npZeroP s.a then some s
    else do
      let s := swapSmaller (← halve 257 s)
      jacobiLoop fuel { s with a := (npSubRaw s.a s.n).2 }

def npQuadraticResidue (value : U256) : Option Bool :=
  if npZeroP value then some true
  else do
    let s ← jacobiLoop 514 { a := value, n := kFieldPrime, negative := false }
    return limbAt s.n 0 = 1 && !s.negative

/-- The candidate for a root: the power with a quarter of the prime plus one. -/
def npRoot (value : U256) : U256 :=
  let chain := npFieldPowerChain value
  let root := npFieldMul (squareN chain.x223 23) chain.x22
  let root := npFieldMul (squareN root 6) chain.x2
  npFieldSquare (npFieldSquare root)

def npQuadraticResiduePower (value : U256) : Bool :=
  npCmp (npFieldSquare (npRoot value)) value = 0

/-! ## Low bits and shifts -/

theorem limbAt_zero (x : U256) : (limbAt x 0).toNat = x.toNat % 2 ^ 32 := by
  have h := toNat_eq_value x
  rw [LimbArray.value_succ'] at h
  have hlt := (limbAt x 0).toNat_lt
  omega

theorem lowBits {x : U256} {m r : UInt32} {k : ℕ} (hm : m.toNat = 2 ^ k - 1) (hk : k ≤ 32) :
    limbAt x 0 &&& m = r ↔ x.toNat % 2 ^ k = r.toNat := by
  rw [← UInt32.toNat_inj, UInt32.toNat_and, hm, Nat.and_two_pow_sub_one_eq_mod, limbAt_zero,
    Nat.mod_mod_of_dvd _ (pow_dvd_pow 2 hk)]

theorem shiftLimbs_spec (l : List UInt32) :
    (shiftLimbs l).1.toNat = value l % 2 ∧ value (shiftLimbs l).2 = value l / 2 := by
  induction l with
  | nil => exact ⟨rfl, rfl⟩
  | cons w l ih =>
    obtain ⟨hbit, hvalue⟩ := ih
    have hw := w.toNat_lt
    have hlow : (w &&& 1).toNat = w.toNat % 2 := by
      rw [UInt32.toNat_and]
      exact Nat.and_one_is_mod _
    have hhigh : (w >>> 1).toNat = w.toNat / 2 := by
      rw [UInt32.toNat_shiftRight, Nat.shiftRight_eq_div_pow]
      rfl
    have htop : ((shiftLimbs l).1 <<< 31).toNat = 2 ^ 31 * (value l % 2) := by
      rw [UInt32.toNat_shiftLeft, Nat.shiftLeft_eq, hbit]
      change value l % 2 * 2 ^ 31 % 2 ^ 32 = _
      omega
    have hor : ((w >>> 1) ||| ((shiftLimbs l).1 <<< 31)).toNat =
        2 ^ 31 * (value l % 2) + w.toNat / 2 := by
      rw [UInt32.toNat_or, hhigh, htop, Nat.or_comm, ← Nat.two_pow_add_eq_or_of_lt (by omega)]
    have hstep : shiftLimbs (w :: l) =
        (w &&& 1, ((w >>> 1) ||| ((shiftLimbs l).1 <<< 31)) :: (shiftLimbs l).2) := rfl
    rw [hstep, value_cons, value_cons, hor, hvalue, hlow]
    omega

theorem npShiftRight_spec (x : U256) : (npShiftRight x).toNat = x.toNat / 2 :=
  (shiftLimbs_spec x.limbs).2

/-! ## The symbol -/

/-- The symbol that is left, with the sign. -/
def JacobiState.symbol (s : JacobiState) : ℤ :=
  if s.negative then -jacobiSym s.a.toNat s.n.toNat else jacobiSym s.a.toNat s.n.toNat

/-- The second number is odd and has no common factor with the first. -/
structure JacobiState.Good (s : JacobiState) : Prop where
  odd : s.n.toNat % 2 = 1
  coprime : Nat.Coprime s.a.toNat s.n.toNat

variable {s : JacobiState}

theorem halve_spec {fuel : ℕ} (hs : s.Good) (hpos : 0 < s.a.toNat) (hfuel : s.a.toNat < 2 ^ fuel) :
    ∃ s', halve fuel s = some s' ∧ s'.Good ∧ s'.symbol = s.symbol ∧ s'.n = s.n ∧
      s'.a.toNat % 2 = 1 ∧ s'.a.toNat ≤ s.a.toNat ∧
        (s.a.toNat % 2 = 0 → s'.a.toNat ≤ s.a.toNat / 2) := by
  induction fuel generalizing s with
  | zero => omega
  | succ fuel ih =>
    rw [halve]
    have hbit := lowBits (x := s.a) (m := 1) (r := 0) (k := 1) rfl (by norm_num)
    by_cases heven : s.a.toNat % 2 = 0
    · rw [if_pos (hbit.mpr heven)]
      obtain ⟨half, hhalf⟩ : ∃ half : JacobiState, half = { s with
        a := npShiftRight s.a
        negative := if limbAt s.n 0 &&& 7 = 3 ∨ limbAt s.n 0 &&& 7 = 5 then !s.negative
          else s.negative } := ⟨_, rfl⟩
      have ha : half.a.toNat = s.a.toNat / 2 := by rw [hhalf, npShiftRight_spec]
      have hn : half.n = s.n := by rw [hhalf]
      have hgood : half.Good := by
        refine ⟨by rw [hn]; exact hs.odd, ?_⟩
        rw [hn, ha]
        exact hs.coprime.coprime_dvd_left (Nat.div_dvd_of_dvd (Nat.dvd_of_mod_eq_zero heven))
      have hsymbol : half.symbol = s.symbol := by
        have hmod3 := lowBits (x := s.n) (m := 7) (r := 3) (k := 3) rfl (by norm_num)
        have hmod5 := lowBits (x := s.n) (m := 7) (r := 5) (k := 3) rfl (by norm_num)
        have hcond : (limbAt s.n 0 &&& 7 = 3 ∨ limbAt s.n 0 &&& 7 = 5) ↔
            (s.n.toNat % 8 = 3 ∨ s.n.toNat % 8 = 5) := or_congr hmod3 hmod5
        have hlaw := jacobiSym.even_odd (a := s.a.toNat) (b := s.n.toNat) (by omega) hs.odd
        have hcast : ((s.a.toNat / 2 : ℕ) : ℤ) = (s.a.toNat : ℤ) / 2 := by push_cast; rfl
        rw [JacobiState.symbol, JacobiState.symbol, ha, hn, hcast, hhalf, ← hlaw]
        by_cases hflip : s.n.toNat % 8 = 3 ∨ s.n.toNat % 8 = 5 <;> cases s.negative <;>
          simp [hcond, hflip]
      obtain ⟨s', hs', hgood', hsymbol', hn', hodd, hle, -⟩ := ih hgood (by omega) (by omega)
      rw [hhalf] at hs'
      exact ⟨s', hs', hgood', hsymbol'.trans hsymbol, hn'.trans hn, hodd, by omega,
        fun _ => by omega⟩
    · rw [if_neg fun h => heven (hbit.mp h)]
      exact ⟨s, rfl, hs, rfl, rfl, by omega, le_rfl, fun h => absurd h heven⟩

theorem swapSmaller_spec (hs : s.Good) (hodd : s.a.toNat % 2 = 1) :
    (swapSmaller s).Good ∧ (swapSmaller s).symbol = s.symbol ∧
      (swapSmaller s).n.toNat ≤ (swapSmaller s).a.toNat ∧ (swapSmaller s).a.toNat % 2 = 1 ∧
        (swapSmaller s).a.toNat * (swapSmaller s).n.toNat = s.a.toNat * s.n.toNat := by
  have hcmp := npCmp_nonneg s.a s.n
  rw [swapSmaller]
  by_cases hlt : npCmp s.a s.n < 0
  · rw [if_pos hlt]
    have hless : s.a.toNat < s.n.toNat := by
      by_contra hge
      exact absurd (hcmp.mpr (Nat.le_of_not_lt hge)) (by omega)
    refine ⟨⟨hodd, hs.coprime.symm⟩, ?_, hless.le, hs.odd, Nat.mul_comm ..⟩
    have hn3 := lowBits (x := s.n) (m := 3) (r := 3) (k := 2) rfl (by norm_num)
    have ha3 := lowBits (x := s.a) (m := 3) (r := 3) (k := 2) rfl (by norm_num)
    have hcond : (limbAt s.n 0 &&& 3 = 3 ∧ limbAt s.a 0 &&& 3 = 3) ↔
        (s.n.toNat % 4 = 3 ∧ s.a.toNat % 4 = 3) := and_congr hn3 ha3
    have hlaw := jacobiSym.quadratic_reciprocity_if hs.odd hodd
    rw [JacobiState.symbol, JacobiState.symbol, ← hlaw]
    by_cases hflip : s.n.toNat % 4 = 3 ∧ s.a.toNat % 4 = 3 <;> cases s.negative <;>
      simp [hcond, hflip]
  · rw [if_neg hlt]
    exact ⟨hs, rfl, hcmp.mp (by omega), hodd, rfl⟩

/-! ## The loop -/

/-- One pass of the loop. -/
theorem pass_spec (hs : s.Good) (hpos : 0 < s.a.toNat) :
    ∃ s', (halve 257 s).map (fun s => { swapSmaller s with
        a := (npSubRaw (swapSmaller s).a (swapSmaller s).n).2 }) = some s' ∧ s'.Good ∧
      s'.symbol = s.symbol ∧ s'.a.toNat % 2 = 0 ∧
        s'.a.toNat * s'.n.toNat ≤ s.a.toNat * s.n.toNat ∧
          (s.a.toNat % 2 = 0 → 2 * (s'.a.toNat * s'.n.toNat) ≤ s.a.toNat * s.n.toNat) := by
  have hlt := U256.toNat_lt s.a
  obtain ⟨h, hhalve, hgood, hsymbol, hn, hodd, hle, hhalf⟩ :=
    @halve_spec _ 257 hs hpos (hlt.trans (Nat.pow_lt_pow_right (by norm_num) (by norm_num)))
  obtain ⟨hgood', hsymbol', hordered, hodd', hproduct⟩ := swapSmaller_spec hgood hodd
  obtain ⟨o, ho⟩ : ∃ o, o = swapSmaller h := ⟨_, rfl⟩
  rw [← ho] at hgood' hsymbol' hordered hodd' hproduct
  have hsub := (npSubRaw_of_le hordered).2
  have hnodd := hgood'.odd
  have hle' : (o.a.toNat - o.n.toNat) * o.n.toNat ≤ h.a.toNat * s.n.toNat := by
    rw [← hn, ← hproduct]
    exact Nat.mul_le_mul_right _ (Nat.sub_le ..)
  refine ⟨{ o with a := (npSubRaw o.a o.n).2 }, by rw [hhalve, ho, Option.map_some],
    ⟨hnodd, ?_⟩, ?_, ?_, ?_, fun heven => ?_⟩
  · rw [hsub]
    exact (Nat.coprime_sub_self_left hordered).mpr hgood'.coprime
  · have hmod : ((o.a.toNat - o.n.toNat : ℕ) : ℤ) % o.n.toNat = o.a.toNat % o.n.toNat := by
      rw [Nat.cast_sub hordered, Int.sub_emod_right]
    rw [← hsymbol, ← hsymbol', JacobiState.symbol, JacobiState.symbol, hsub,
      jacobiSym.mod_left' hmod]
  · rw [hsub]
    omega
  · rw [hsub]
    exact hle'.trans (Nat.mul_le_mul_right _ hle)
  · rw [hsub]
    calc 2 * ((o.a.toNat - o.n.toNat) * o.n.toNat) ≤ 2 * (h.a.toNat * s.n.toNat) :=
          Nat.mul_le_mul_left _ hle'
      _ ≤ 2 * (s.a.toNat / 2 * s.n.toNat) :=
          Nat.mul_le_mul_left _ (Nat.mul_le_mul_right _ (hhalf heven))
      _ = 2 * (s.a.toNat / 2) * s.n.toNat := (Nat.mul_assoc ..).symm
      _ ≤ s.a.toNat * s.n.toNat := Nat.mul_le_mul_right _ (Nat.mul_div_le ..)

theorem jacobiLoop_succ {fuel : ℕ} (hpos : 0 < s.a.toNat) :
    jacobiLoop (fuel + 1) s = ((halve 257 s).map fun s => { swapSmaller s with
        a := (npSubRaw (swapSmaller s).a (swapSmaller s).n).2 }).bind (jacobiLoop fuel) := by
  have hzero : ¬npZeroP s.a = true := by
    rw [npZeroP_iff]
    omega
  rw [jacobiLoop, if_neg hzero]
  cases halve 257 s <;> rfl

/-- What the loop leaves: one, and the sign of the symbol. -/
structure JacobiState.Done (start last : JacobiState) : Prop where
  one : last.n.toNat = 1
  sign : start.symbol = if last.negative then -1 else 1

theorem jacobiLoop_zero (hs : s.Good) (h : s.a.toNat = 0) (fuel : ℕ) :
    ∃ last, jacobiLoop (fuel + 1) s = some last ∧ s.Done last := by
  have hn : s.n.toNat = 1 := by
    have hcoprime := hs.coprime
    rwa [h, Nat.coprime_zero_left] at hcoprime
  refine ⟨s, by rw [jacobiLoop, if_pos ((npZeroP_iff _).mpr h)], hn, ?_⟩
  rw [JacobiState.symbol, hn, jacobiSym.one_right]

/-- **The loop ends.** After the first pass every pass halves the product of the numbers. -/
theorem jacobiLoop_spec {bits : ℕ} (hs : s.Good) (heven : s.a.toNat % 2 = 0)
    (hbits : s.a.toNat * s.n.toNat < 2 ^ bits) :
    ∃ last, jacobiLoop (bits + 1) s = some last ∧ s.Done last := by
  induction bits generalizing s with
  | zero =>
    have hodd := hs.odd
    rcases Nat.eq_zero_or_pos s.a.toNat with h | h
    · exact jacobiLoop_zero hs h 0
    · have := Nat.mul_pos h (show 0 < s.n.toNat by omega)
      omega
  | succ bits ih =>
    rcases Nat.eq_zero_or_pos s.a.toNat with h | h
    · exact jacobiLoop_zero hs h _
    · obtain ⟨s', hpass, hgood, hsymbol, heven', -, hhalf⟩ := pass_spec hs h
      have hle := hhalf heven
      rw [pow_succ] at hbits
      obtain ⟨last, hlast, hone, hsign⟩ := ih hgood heven' (by omega)
      exact ⟨last, by rw [jacobiLoop_succ h, hpass, Option.bind_some, hlast], hone,
        hsymbol.symm.trans hsign⟩

/-! ## Squares -/

variable {v : U256}

/-- A square is its own power with half of the prime plus one. -/
theorem isSquare_iff_pow (v : ℕ) : IsSquare (v : ZMod fieldPrime) ↔
    (v : ZMod fieldPrime) ^ ((fieldPrime + 1) / 2) = v := by
  have hhalf : (fieldPrime + 1) / 2 = fieldPrime / 2 + 1 := by decide
  rw [hhalf, pow_succ]
  by_cases hv : (v : ZMod fieldPrime) = 0
  · rw [hv, mul_zero]
    exact ⟨fun _ => rfl, fun _ => IsSquare.zero⟩
  · rw [ZMod.euler_criterion fieldPrime hv]
    exact ⟨fun h => by rw [h, one_mul], fun h => mul_right_cancel₀ hv (by rw [h, one_mul])⟩

theorem npRoot_power (v : U256) : Power v (npRoot v) ((fieldPrime + 1) / 4) := by
  obtain ⟨h2, h22, h223⟩ := npFieldPowerChain_spec v
  have hfirst := h223.chain h22 23
    (show 2 ^ 23 * (2 ^ 223 - 1) + (2 ^ 22 - 1) = 2 ^ 246 - 2 ^ 22 - 1 by norm_num)
  have hsecond := hfirst.chain h2 6
    (show 2 ^ 6 * (2 ^ 246 - 2 ^ 22 - 1) + (2 ^ 2 - 1) = 2 ^ 252 - 2 ^ 28 - 61 by norm_num)
  have hexponent : 2 * (2 * (2 ^ 252 - 2 ^ 28 - 61)) = (fieldPrime + 1) / 4 := by
    rw [fieldPrime]
    norm_num
  rw [← hexponent]
  exact hsecond.square.square

/-- The test by a power. -/
theorem npQuadraticResiduePower_iff (hv : v.toNat < fieldPrime) :
    npQuadraticResiduePower v = true ↔ IsSquare (v.toNat : ZMod fieldPrime) := by
  have hsquare := (npRoot_power v).square
  have hexponent : 2 * ((fieldPrime + 1) / 4) = (fieldPrime + 1) / 2 := by decide
  have hlt : (npFieldSquare (npRoot v)).toNat < fieldPrime := by
    rw [npFieldSquare_eq, npFieldMul_spec]
    exact Nat.mod_lt _ (by decide)
  rw [hexponent, Power] at hsquare
  rw [isSquare_iff_pow, ← hsquare, ZMod.natCast_eq_natCast_iff', Nat.mod_eq_of_lt hlt,
    Nat.mod_eq_of_lt hv, npQuadraticResiduePower, decide_eq_true_iff]
  rcases npCmp_cases (npFieldSquare (npRoot v)) v with ⟨h, hne⟩ | ⟨h, heq⟩ | ⟨h, hne⟩
  · exact ⟨fun h' => by omega, fun h' => by omega⟩
  · exact ⟨fun _ => by rw [heq], fun _ => h⟩
  · exact ⟨fun h' => by omega, fun h' => by omega⟩

/-- The test by the loop. -/
theorem npQuadraticResidue_iff (hv : v.toNat < fieldPrime) :
    ∃ r, npQuadraticResidue v = some r ∧ (r = true ↔ IsSquare (v.toNat : ZMod fieldPrime)) := by
  rcases Nat.eq_zero_or_pos v.toNat with hzero | hpos
  · refine ⟨true, by rw [npQuadraticResidue, if_pos ((npZeroP_iff v).mpr hzero)], ?_⟩
    rw [hzero, Nat.cast_zero]
    exact ⟨fun _ => IsSquare.zero, fun _ => rfl⟩
  · obtain ⟨start, hstart⟩ : ∃ start : JacobiState,
      start = { a := v, n := kFieldPrime, negative := false } := ⟨_, rfl⟩
    have ha : start.a = v := by rw [hstart]
    have hn : start.n.toNat = fieldPrime := by rw [hstart, kFieldPrime_toNat]
    have hodd : fieldPrime % 2 = 1 := by decide
    have hgood : start.Good := by
      refine ⟨by rw [hn, hodd], ?_⟩
      rw [ha, hn]
      exact (Nat.coprime_of_lt_prime hpos.ne' hv fieldPrime_prime).symm
    have hbits : start.a.toNat * start.n.toNat < 2 ^ 512 := by
      calc start.a.toNat * start.n.toNat < 2 ^ 256 * 2 ^ 256 :=
            Nat.mul_lt_mul'' (U256.toNat_lt _) (U256.toNat_lt _)
        _ = 2 ^ 512 := (pow_add 2 256 256).symm
    obtain ⟨s', hpass, hgood', hsymbol, heven, hle, -⟩ := pass_spec hgood (by rwa [ha])
    obtain ⟨last, hlast, hone, hsign⟩ := @jacobiLoop_spec _ 512 hgood' heven (hle.trans_lt hbits)
    have hloop : jacobiLoop 514 start = some last := by
      rw [jacobiLoop_succ (by rwa [ha]), hpass, Option.bind_some, hlast]
    have hone' : limbAt last.n 0 = 1 := by
      rw [← UInt32.toNat_inj, limbAt_zero, hone]
      rfl
    have hsymbol' : jacobiSym v.toNat fieldPrime = if last.negative then -1 else 1 := by
      rw [← hsign, hsymbol, JacobiState.symbol, hn, ha, hstart]
      rfl
    have hnotZero : ¬npZeroP v = true := by
      rw [npZeroP_iff]
      omega
    refine ⟨!last.negative, ?_, ?_⟩
    · rw [npQuadraticResidue, if_neg hnotZero, ← hstart, hloop]
      simp [hone']
    · have hne : ((v.toNat : ℤ) : ZMod fieldPrime) ≠ 0 := by
        rw [Int.cast_natCast, Ne, ZMod.natCast_eq_zero_iff]
        exact fun hdvd => hpos.ne' (Nat.eq_zero_of_dvd_of_lt hdvd hv)
      have hlegendre := legendreSym.eq_one_iff fieldPrime hne
      rw [jacobiSym.legendreSym.to_jacobiSym, hsymbol', Int.cast_natCast] at hlegendre
      rw [← hlegendre]
      cases last.negative <;> simp

/-- **The test ends and is right.** Both tests hold exactly of the squares, zero among them. -/
theorem quadratic_residue_exact (v : U256) (hv : v.toNat < fieldPrime) :
    ∃ r, npQuadraticResidue v = some r ∧ (r = true ↔ IsSquare (v.toNat : ZMod fieldPrime)) ∧
      npQuadraticResiduePower v = r ∧
        (npRoot v).toNat = (v.toNat : ZMod fieldPrime) ^ ((fieldPrime + 1) / 4) := by
  obtain ⟨r, hr, hsquare⟩ := npQuadraticResidue_iff hv
  refine ⟨r, hr, hsquare, ?_, npRoot_power v⟩
  rw [Bool.eq_iff_iff, npQuadraticResiduePower_iff hv, hsquare]

/-- The test of one. -/
theorem quadratic_residue_exact_one :
    ∃ r, npQuadraticResidue npOne = some r ∧
      (r = true ↔ IsSquare (npOne.toNat : ZMod fieldPrime)) ∧ npQuadraticResiduePower npOne = r ∧
        (npRoot npOne).toNat = (npOne.toNat : ZMod fieldPrime) ^ ((fieldPrime + 1) / 4) :=
  quadratic_residue_exact npOne (npOne_toNat ▸ fieldPrime_prime.one_lt)

end MoMiner.Nexapow
