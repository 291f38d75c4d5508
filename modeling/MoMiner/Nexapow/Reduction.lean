import MoMiner.Nexapow.Product

/-!
# Reduction modulo the field prime

Since `2 ^ 256` is `2 ^ 32 + 977` modulo the prime, the high half of a product is folded into the
low half, what is left above 256 bits is folded again, and at most one prime is subtracted.

Main result: `field_arithmetic`.
-/

namespace MoMiner.Nexapow

open MoMiner.Limbs

/-- `2 ^ 256` modulo the prime. -/
def foldFactor : ℕ := 2 ^ 32 + 977

/-! ## Folds -/

theorem reduceLimb_spec (carryIn : UInt32) (input : UInt32 × UInt32 × UInt32) :
    (reduceLimb carryIn input).2.toNat + 2 ^ 32 * (reduceLimb carryIn input).1.toNat =
      input.1.toNat + 977 * input.2.1.toNat + input.2.2.toNat + carryIn.toNat := by
  obtain ⟨low, high, shifted⟩ := input
  have hproduct := toNat_product high 977
  have hlow := high.toNat_lt
  have hfactor : (977 : UInt32).toNat = 977 := rfl
  simp only [reduceLimb, show UInt32.toUInt64 977 = 977 from rfl] at hproduct ⊢
  rw [hfactor] at hproduct
  generalize (high.toUInt64 * 977).toUInt32 = productLow at *
  generalize ((high.toUInt64 * 977) >>> 32).toUInt32 = productHigh at *
  have h₁ := toNat_add_ofBool productLow low
  have h₂ := toNat_add_ofBool (productLow + low) shifted
  have h₃ := toNat_add_ofBool (productLow + low + shifted) carryIn
  have b₁ := ofBool_le (productLow + low < productLow)
  have b₂ := ofBool_le (productLow + low + shifted < productLow + low)
  have b₃ := ofBool_le (productLow + low + shifted + carryIn < productLow + low + shifted)
  generalize ofBool (productLow + low < productLow) = bit₁ at *
  generalize ofBool (productLow + low + shifted < productLow + low) = bit₂ at *
  generalize ofBool (productLow + low + shifted + carryIn < productLow + low + shifted) = bit₃ at *
  have hhigh₁ : (productHigh + bit₁).toNat = productHigh.toNat + bit₁.toNat :=
    toNat_add_of_lt (by omega)
  have hhigh₂ :
      (productHigh + bit₁ + bit₂).toNat = productHigh.toNat + bit₁.toNat + bit₂.toNat := by
    rw [toNat_add_of_lt, hhigh₁]
    omega
  have hhigh₃ : (productHigh + bit₁ + bit₂ + bit₃).toNat =
      productHigh.toNat + bit₁.toNat + bit₂.toNat + bit₃.toNat := by
    rw [toNat_add_of_lt, hhigh₂]
    omega
  omega

/-- A run of folds. -/
theorem value_scan_reduceLimb (carry : UInt32) (l : List (UInt32 × UInt32 × UInt32)) :
    (value (scan reduceLimb carry l).2 : ℤ) +
        (2 ^ 32) ^ l.length * (scan reduceLimb carry l).1.toNat =
      weigh (l.map fun input =>
        (input.1.toNat + 977 * input.2.1.toNat + input.2.2.toNat : ℤ)) + carry.toNat := by
  refine (value_scan reduceLimb (fun c => (c.toNat : ℤ)) _ (fun _ => True) trivial ?_).2
  intro c input _ _
  exact ⟨trivial, by exact_mod_cast reduceLimb_spec c input⟩

theorem toNat_eight (r : Number 8) : r.toNat = (r.get 0).toNat + 2 ^ 32 * ((r.get 1).toNat +
    2 ^ 32 * ((r.get 2).toNat + 2 ^ 32 * ((r.get 3).toNat + 2 ^ 32 * ((r.get 4).toNat +
    2 ^ 32 * ((r.get 5).toNat + 2 ^ 32 * ((r.get 6).toNat + 2 ^ 32 * (r.get 7).toNat)))))) := by
  obtain ⟨l, hl⟩ := r
  match l, hl with
  | [r0, r1, r2, r3, r4, r5, r6, r7], _ => rfl

/-- **A fold of what is above 256 bits.** -/
theorem foldHigh_spec (r : Number 8) {high : UInt64} (hhigh : high.toNat < 2 ^ 40) :
    (foldHigh r high).2.toNat + 2 ^ 256 * (foldHigh r high).1.toNat =
      r.toNat + high.toNat * foldFactor := by
  have hlow : high.toUInt32.toNat = high.toNat % 2 ^ 32 := UInt64.toNat_toUInt32 high
  have htop : (high >>> 32).toUInt32.toNat = high.toNat / 2 ^ 32 := by
    rw [UInt64.toNat_toUInt32, UInt64.toNat_shiftRight, show (32 : UInt64).toNat % 64 = 32 from rfl,
      Nat.shiftRight_eq_div_pow, Nat.mod_eq_of_lt (by omega)]
  have hfirst := reduceLimb_spec 0 (r.get 0, high.toUInt32, 0)
  have hzero : (0 : UInt32).toNat = 0 := rfl
  have hlimb := (r.get 0).toNat_lt
  simp only [hzero] at hfirst
  have hproduct : ((high >>> 32).toUInt32 * 977).toNat = (high >>> 32).toUInt32.toNat * 977 := by
    rw [UInt32.toNat_mul, show (977 : UInt32).toNat = 977 from rfl, Nat.mod_eq_of_lt (by omega)]
  have hcarry :
      ((reduceLimb 0 (r.get 0, high.toUInt32, 0)).1 + (high >>> 32).toUInt32 * 977).toNat =
      (reduceLimb 0 (r.get 0, high.toUInt32, 0)).1.toNat + (high >>> 32).toUInt32.toNat * 977 := by
    rw [toNat_add_of_lt, hproduct]
    rw [hproduct]
    omega
  have hrest := value_scan_reduceLimb
    ((reduceLimb 0 (r.get 0, high.toUInt32, 0)).1 + (high >>> 32).toUInt32 * 977)
    [(r.get 1, 0, high.toUInt32), (r.get 2, 0, (high >>> 32).toUInt32), (r.get 3, 0, 0),
      (r.get 4, 0, 0), (r.get 5, 0, 0), (r.get 6, 0, 0), (r.get 7, 0, 0)]
  rw [hcarry] at hrest
  simp only [List.map_cons, List.map_nil, weigh, hzero, List.length_cons, List.length_nil] at hrest
  have hresult : ∀ rest, scan reduceLimb
      ((reduceLimb 0 (r.get 0, high.toUInt32, 0)).1 + (high >>> 32).toUInt32 * 977)
      [(r.get 1, 0, high.toUInt32), (r.get 2, 0, (high >>> 32).toUInt32), (r.get 3, 0, 0),
        (r.get 4, 0, 0), (r.get 5, 0, 0), (r.get 6, 0, 0), (r.get 7, 0, 0)] = rest →
      (foldHigh r high).2.toNat =
          (reduceLimb 0 (r.get 0, high.toUInt32, 0)).2.toNat + 2 ^ 32 * value rest.2 ∧
        (foldHigh r high).1.toNat = rest.1.toNat := by
    rintro rest rfl
    exact ⟨rfl, UInt32.toNat_toUInt64 _⟩
  obtain ⟨hvalue, hnext⟩ := hresult _ rfl
  have hsplit : high.toNat = high.toUInt32.toNat + 2 ^ 32 * (high >>> 32).toUInt32.toNat := by
    omega
  rw [hvalue, hnext, toNat_eight r, hsplit, foldFactor]
  zify at hfirst ⊢
  push_cast at hrest
  linear_combination hfirst + 2 ^ 32 * hrest

/-! ## The canonical residue -/

theorem notBelowPrime_iff (r : Number 8) : notBelowPrime r = true ↔ fieldPrime ≤ r.toNat := by
  have h0 := (r.get 0).toNat_lt
  have h1 := (r.get 1).toNat_lt
  have h2 := (r.get 2).toNat_lt
  have h3 := (r.get 3).toNat_lt
  have h4 := (r.get 4).toNat_lt
  have h5 := (r.get 5).toNat_lt
  have h6 := (r.get 6).toNat_lt
  have h7 := (r.get 7).toNat_lt
  simp only [notBelowPrime, Bool.and_eq_true, Bool.or_eq_true, decide_eq_true_eq,
    ← UInt32.toNat_inj, ge_iff_le, UInt32.le_iff_toNat_le, UInt32.reduceToNat]
  rw [toNat_eight, fieldPrime]
  omega

theorem sumLimb_spec {carry : UInt64} (hcarry : carry.toNat ≤ 1) (input : UInt32 × UInt32) :
    (sumLimb carry input).1.toNat ≤ 1 ∧
      (sumLimb carry input).2.toNat + 2 ^ 32 * (sumLimb carry input).1.toNat =
        input.1.toNat + input.2.toNat + carry.toNat := by
  have h₁ := input.1.toNat_lt
  have h₂ := input.2.toNat_lt
  have hsum : (carry + input.1.toUInt64 + input.2.toUInt64).toNat =
      carry.toNat + input.1.toNat + input.2.toNat := by
    rw [UInt64.toNat_add, UInt64.toNat_add, UInt32.toNat_toUInt64, UInt32.toNat_toUInt64]
    omega
  simp only [sumLimb, UInt64.toNat_shiftRight, UInt64.toNat_toUInt32, hsum,
    show (32 : UInt64).toNat % 64 = 32 from rfl, Nat.shiftRight_eq_div_pow]
  omega

theorem value_prime_complement : value [977, 1, 0, 0, 0, 0, 0, 0] = foldFactor := by
  simp [value_cons, foldFactor]

/-- A number that is not below the prime, less the prime. -/
theorem subtractPrime_spec {r : Number 8} (hr : fieldPrime ≤ r.toNat) :
    (subtractPrime r).toNat = r.toNat - fieldPrime := by
  have hlength : r.limbs.length = [977, 1, 0, 0, 0, 0, 0, (0 : UInt32)].length := r.length_eq
  obtain ⟨-, hsum⟩ := value_scan sumLimb (fun c => (c.toNat : ℤ))
    (fun input => (input.1.toNat + input.2.toNat : ℤ)) (fun c => c.toNat ≤ 1)
    (l := r.limbs.zip [977, 1, 0, 0, 0, 0, 0, 0]) (s := 0) (by decide) fun c input _ hc =>
      ⟨(sumLimb_spec hc input).1, by exact_mod_cast (sumLimb_spec hc input).2⟩
  rw [weigh_map_add, weigh_zip_fst (fun w => (w.toNat : ℤ)) hlength,
    weigh_zip_snd (fun w => (w.toNat : ℤ)) hlength, weigh_toNat, weigh_toNat, List.length_zip,
    ← hlength, Nat.min_self, r.length_eq, value_prime_complement] at hsum
  have hvalue : (subtractPrime r).toNat + (2 ^ 32) ^ 8 *
      (scan sumLimb 0 (r.limbs.zip [977, 1, 0, 0, 0, 0, 0, 0])).1.toNat = r.toNat + foldFactor := by
    have hzero : (UInt64.toNat 0 : ℤ) = 0 := rfl
    have hresult : (subtractPrime r).toNat =
        value (scan sumLimb 0 (r.limbs.zip [977, 1, 0, 0, 0, 0, 0, 0])).2 := rfl
    rw [hzero, add_zero, ← hresult, ← Number.toNat] at hsum
    exact_mod_cast hsum
  generalize (scan sumLimb 0 (r.limbs.zip [977, 1, 0, 0, 0, 0, 0, 0])).1 = carry at hvalue
  have hlt := r.toNat_lt
  have hlt' := (subtractPrime r).toNat_lt
  rw [fieldPrime] at hr ⊢
  rw [foldFactor] at hvalue
  omega

/-- **The first fold.** -/
theorem foldHalf_spec (input : Number 16) :
    (foldHalf input).2.toNat + 2 ^ 256 * (foldHalf input).1.toNat =
      value (input.limbs.take 8) + foldFactor * value (input.limbs.drop 8) := by
  have hlow : (input.limbs.take 8).length = 8 := by simp [input.length_eq]
  have hhigh : (input.limbs.drop 8).length = 8 := by simp [input.length_eq]
  have hshift : (0 :: (input.limbs.drop 8).take 7).length = 8 := by simp [input.length_eq]
  have hpair : ((input.limbs.drop 8).zip (0 :: (input.limbs.drop 8).take 7)).length = 8 := by
    rw [List.length_zip, hhigh, hshift]
    rfl
  have hsum := value_scan_reduceLimb 0 ((input.limbs.take 8).zip
    ((input.limbs.drop 8).zip (0 :: (input.limbs.drop 8).take 7)))
  rw [weigh_map_add, weigh_map_add, weigh_map_mul,
    weigh_zip_fst (fun w => (w.toNat : ℤ)) (hlow.trans hpair.symm),
    weigh_zip_snd (fun p : UInt32 × UInt32 => (p.1.toNat : ℤ)) (hlow.trans hpair.symm),
    weigh_zip_snd (fun p : UInt32 × UInt32 => (p.2.toNat : ℤ)) (hlow.trans hpair.symm),
    weigh_zip_fst (fun w => (w.toNat : ℤ)) (hhigh.trans hshift.symm),
    weigh_zip_snd (fun w => (w.toNat : ℤ)) (hhigh.trans hshift.symm), weigh_toNat, weigh_toNat,
    weigh_toNat, value_cons, List.length_zip, hlow, hpair, Nat.min_self] at hsum
  have hlast : value (input.limbs.drop 8) =
      value ((input.limbs.drop 8).take 7) + (2 ^ 32) ^ 7 * (input.get 15).toNat := by
    have hget :
        Number.get (n := 7 + 1) ⟨input.limbs.drop 8, hhigh⟩ (Fin.last 7) = input.get 15 := by
      simp [Number.get]
    have h := toNat_eq_take_last (n := 7) ⟨input.limbs.drop 8, hhigh⟩
    rwa [hget] at h
  have hnext : (foldHalf input).1.toNat = (input.get 15).toNat + (scan reduceLimb 0
      ((input.limbs.take 8).zip ((input.limbs.drop 8).zip
        (0 :: (input.limbs.drop 8).take 7)))).1.toNat := by
    have h₁ := (input.get 15).toNat_lt
    have h₂ := (scan reduceLimb 0 ((input.limbs.take 8).zip ((input.limbs.drop 8).zip
      (0 :: (input.limbs.drop 8).take 7)))).1.toNat_lt
    rw [foldHalf, UInt64.toNat_add, UInt32.toNat_toUInt64, UInt32.toNat_toUInt64,
      Nat.mod_eq_of_lt (by omega)]
  have hvalue : (foldHalf input).2.toNat = value (scan reduceLimb 0
      ((input.limbs.take 8).zip ((input.limbs.drop 8).zip
        (0 :: (input.limbs.drop 8).take 7)))).2 := rfl
  rw [hnext, hvalue, hlast, foldFactor]
  have hzero : (UInt32.toNat 0 : ℤ) = 0 := rfl
  rw [hlast, hzero] at hsum
  zify
  push_cast at hsum
  linear_combination hsum

theorem foldAgain_spec {s : UInt64 × Number 8} (hs : s.1.toNat < 2 ^ 40) :
    (foldAgain s).2.toNat + 2 ^ 256 * (foldAgain s).1.toNat =
      s.2.toNat + s.1.toNat * foldFactor := by
  rw [foldAgain]
  split_ifs with h
  · exact foldHigh_spec s.2 hs
  · rw [not_not] at h
    rw [h, UInt64.toNat_zero, Nat.zero_mul, Nat.mul_zero]

/-- A fold keeps the residue. -/
theorem fold_modEq (x h : ℕ) : x + h * foldFactor ≡ x + 2 ^ 256 * h [MOD fieldPrime] := by
  have hpow : 2 ^ 256 = fieldPrime + foldFactor := by decide
  have hsplit : x + 2 ^ 256 * h = x + h * foldFactor + fieldPrime * h := by
    rw [hpow]
    ring
  rw [hsplit]
  exact (Nat.add_mul_mod_self_left _ _ _).symm

/-- Two folds leave nothing above 256 bits. -/
theorem foldAgain_eq_zero {s : UInt64 × Number 8} (hs : s.1.toNat < 2 ^ 34) :
    (foldAgain (foldHigh s.2 s.1)).1 = 0 ∧
      (foldAgain (foldHigh s.2 s.1)).2.toNat ≡
        s.2.toNat + 2 ^ 256 * s.1.toNat [MOD fieldPrime] := by
  have hfirst := foldHigh_spec s.2 (hs.trans (by decide))
  have hfirst' : (foldHigh s.2 s.1).2.toNat + 2 ^ 256 * (foldHigh s.2 s.1).1.toNat =
      s.2.toNat + s.1.toNat * (2 ^ 32 + 977) := hfirst
  have hlt : s.2.toNat < 2 ^ 256 := s.2.toNat_lt
  have hbit : (foldHigh s.2 s.1).1.toNat ≤ 1 := by omega
  have hagain := foldAgain_spec (s := foldHigh s.2 s.1) (hbit.trans_lt (by decide))
  have hagain' : (foldAgain (foldHigh s.2 s.1)).2.toNat +
      2 ^ 256 * (foldAgain (foldHigh s.2 s.1)).1.toNat =
        (foldHigh s.2 s.1).2.toNat + (foldHigh s.2 s.1).1.toNat * (2 ^ 32 + 977) := hagain
  have hzero : (foldAgain (foldHigh s.2 s.1)).1.toNat = 0 := by
    have hlt' : (foldHigh s.2 s.1).2.toNat < 2 ^ 256 := (foldHigh s.2 s.1).2.toNat_lt
    omega
  refine ⟨UInt64.toNat_inj.mp hzero, ?_⟩
  rw [hzero, Nat.mul_zero, Nat.add_zero] at hagain
  calc (foldAgain (foldHigh s.2 s.1)).2.toNat
      = (foldHigh s.2 s.1).2.toNat + (foldHigh s.2 s.1).1.toNat * foldFactor := hagain
    _ ≡ (foldHigh s.2 s.1).2.toNat + 2 ^ 256 * (foldHigh s.2 s.1).1.toNat [MOD fieldPrime] :=
        fold_modEq _ _
    _ = s.2.toNat + s.1.toNat * foldFactor := hfirst
    _ ≡ s.2.toNat + 2 ^ 256 * s.1.toNat [MOD fieldPrime] := fold_modEq _ _

theorem canonical_spec (r : Number 8) :
    (if notBelowPrime r then subtractPrime r else r).toNat = r.toNat % fieldPrime := by
  have hlt : r.toNat < 2 ^ 256 := r.toNat_lt
  split_ifs with h
  · rw [notBelowPrime_iff] at h
    have hsub : r.toNat - fieldPrime < fieldPrime := by
      rw [fieldPrime] at h ⊢
      omega
    rw [subtractPrime_spec h, Nat.mod_eq_sub_mod h, Nat.mod_eq_of_lt hsub]
  · rw [notBelowPrime_iff, Nat.not_le] at h
    rw [Nat.mod_eq_of_lt h]

/-- **Reduction.** Every number of 512 bits is reduced to its canonical residue. -/
theorem reduce_spec (input : Number 16) : (reduce input).toNat = input.toNat % fieldPrime := by
  have hhalf := foldHalf_spec input
  have hinput :
      input.toNat = value (input.limbs.take 8) + 2 ^ 256 * value (input.limbs.drop 8) := by
    have h := value_append (input.limbs.take 8) (input.limbs.drop 8)
    rwa [List.take_append_drop, List.length_take, input.length_eq] at h
  have hlow : value (input.limbs.take 8) < 2 ^ 256 := by
    have h := value_lt (input.limbs.take 8)
    rwa [List.length_take, input.length_eq] at h
  have hhigh : value (input.limbs.drop 8) < 2 ^ 256 := by
    have h := value_lt (input.limbs.drop 8)
    rwa [List.length_drop, input.length_eq] at h
  have hnext : (foldHalf input).1.toNat < 2 ^ 34 := by
    rw [foldFactor] at hhalf
    omega
  obtain ⟨hzero, hmod⟩ := foldAgain_eq_zero hnext
  have hlast : foldAgain (foldAgain (foldHigh (foldHalf input).2 (foldHalf input).1)) =
      foldAgain (foldHigh (foldHalf input).2 (foldHalf input).1) := by
    rw [foldAgain, if_neg (not_not.mpr hzero)]
  have hinput' : (foldAgain (foldHigh (foldHalf input).2 (foldHalf input).1)).2.toNat ≡
      input.toNat [MOD fieldPrime] := by
    calc (foldAgain (foldHigh (foldHalf input).2 (foldHalf input).1)).2.toNat
        ≡ (foldHalf input).2.toNat + 2 ^ 256 * (foldHalf input).1.toNat [MOD fieldPrime] := hmod
      _ = value (input.limbs.take 8) + value (input.limbs.drop 8) * foldFactor := by
          rw [hhalf, Nat.mul_comm]
      _ ≡ value (input.limbs.take 8) + 2 ^ 256 * value (input.limbs.drop 8) [MOD fieldPrime] :=
          fold_modEq _ _
      _ = input.toNat := hinput.symm
  simp only [reduce]
  rw [hlast, ← hinput']
  generalize (foldAgain (foldHigh (foldHalf input).2 (foldHalf input).1)).2 = r
  exact canonical_spec r

/-! ## The field -/

theorem mul_spec (a b : Number 8) : (mul a b).toNat = a.toNat * b.toNat % fieldPrime := by
  rw [mul, reduce_spec, multiplyWide_spec]

theorem square_eq (a : Number 8) : square a = mul a a := by
  rw [square, squareWide_eq, mul]

/-- A difference of limbs, with its borrow. -/
theorem value_scan_subtract {l l' : List UInt32} (h : l.length = l'.length) :
    (scan subtractPair 0 (l.zip l')).1.toNat ≤ 1 ∧
      value (scan subtractPair 0 (l.zip l')).2 + value l' =
        value l + (2 ^ 32) ^ l.length * (scan subtractPair 0 (l.zip l')).1.toNat := by
  obtain ⟨hborrow, hsum⟩ := value_scan subtractPair (fun borrow => -(borrow.toNat : ℤ))
    (fun p => (p.1.toNat + -1 * p.2.toNat : ℤ)) (fun borrow => borrow.toNat ≤ 1)
    (l := l.zip l') (s := 0) (by decide) fun borrow p _ hborrow => by
      obtain ⟨hnext, hlimb⟩ := subtractProductLimb_spec hborrow p.1 p.2
      refine ⟨hnext, ?_⟩
      rw [subtractPair]
      linear_combination hlimb
  refine ⟨hborrow, ?_⟩
  have hzero : (UInt32.toNat 0 : ℤ) = 0 := rfl
  rw [weigh_map_add, weigh_map_mul, weigh_zip_fst (fun w => (w.toNat : ℤ)) h,
    weigh_zip_snd (fun w => (w.toNat : ℤ)) h, weigh_toNat, weigh_toNat, List.length_zip, ← h,
    Nat.min_self, hzero] at hsum
  zify
  linear_combination hsum

theorem sub_toNat (a b : Number 8) {r : UInt32 × List UInt32}
    (hr : scan subtractPair 0 (a.limbs.zip b.limbs) = r) :
    (sub a b).toNat = value (scan subtractPair 0
      (r.2.zip [977 &&& (0 - r.1), 1 &&& (0 - r.1), 0, 0, 0, 0, 0, 0])).2 := by
  subst hr
  rfl

/-- **Differences.** -/
theorem sub_spec {a b : Number 8} (ha : a.toNat < fieldPrime) (hb : b.toNat < fieldPrime) :
    ((sub a b).toNat : ℤ) = ((a.toNat : ℤ) - b.toNat) % fieldPrime := by
  obtain ⟨hborrow, hfirst⟩ := value_scan_subtract (a.length_eq.trans b.length_eq.symm)
  rw [a.length_eq, ← Number.toNat, ← Number.toNat] at hfirst
  have hlength : (scan subtractPair 0 (a.limbs.zip b.limbs)).2.length = 8 := by
    rw [length_scan, List.length_zip, a.length_eq, b.length_eq]
    rfl
  have hresult := sub_toNat a b rfl
  have hlt := (sub a b).toNat_lt
  generalize scan subtractPair 0 (a.limbs.zip b.limbs) = r at *
  have hvalue := value_lt r.2
  rw [hlength] at hvalue
  obtain ⟨-, hsecond⟩ := value_scan_subtract
    (show r.2.length = [977 &&& (0 - r.1), 1 &&& (0 - r.1), 0, 0, 0, 0, 0, 0].length from hlength)
  rw [← hresult, hlength] at hsecond
  rcases eq_zero_or_eq_one hborrow with h | h
  · -- Nothing is borrowed: zero is subtracted.
    rw [h, show value [977 &&& (0 - 0), 1 &&& (0 - 0), 0, 0, 0, 0, 0, 0] = 0 from by decide]
      at hsecond
    rw [h, UInt32.toNat_zero] at hfirst
    have hsub : (sub a b).toNat + b.toNat = a.toNat := by omega
    rw [← hsub, Nat.cast_add, add_sub_cancel_right, Int.emod_eq_of_lt (Int.natCast_nonneg _)]
    exact_mod_cast (by omega : (sub a b).toNat < fieldPrime)
  · -- A borrow is paid back with the prime.
    rw [h, show value [977 &&& (0 - 1), 1 &&& (0 - 1), 0, 0, 0, 0, 0, 0] = 2 ^ 32 + 977 from
      by decide] at hsecond
    rw [h, UInt32.toNat_one] at hfirst
    have hlow : a.toNat < b.toNat := by omega
    have hsub : (sub a b).toNat + b.toNat = a.toNat + fieldPrime := by
      rw [fieldPrime] at ha hb ⊢
      omega
    have hsub' : ((a.toNat : ℤ) - b.toNat) = (sub a b).toNat + -1 * fieldPrime := by
      have : ((sub a b).toNat : ℤ) + b.toNat = a.toNat + fieldPrime := by exact_mod_cast hsub
      linear_combination -this
    rw [hsub', Int.add_mul_emod_self_right, Int.emod_eq_of_lt (Int.natCast_nonneg _)]
    exact_mod_cast (by omega : (sub a b).toNat < fieldPrime)

theorem correction_spec : (correction 0).toNat = 0 ∧
    (correction 0xffffffff).toNat = foldFactor * foldFactor := by
  decide

theorem pow_512_modEq : ((2 ^ 32) ^ 16 : ℤ) ≡ foldFactor * foldFactor [ZMOD fieldPrime] := by
  decide

/-- **A difference of products.** -/
theorem mulSubMul_spec (a b c d : Number 8) : ((mulSubMul a b c d).toNat : ℤ) =
    ((a.toNat : ℤ) * b.toNat - c.toNat * d.toNat) % fieldPrime := by
  have hreduce := reduce_spec (subtractProductWide (multiplyWide a b) c d).2
  have hcanonical : (reduce (subtractProductWide (multiplyWide a b) c d).2).toNat < fieldPrime := by
    rw [hreduce]
    exact Nat.mod_lt _ (by decide)
  have hresidue : ((reduce (subtractProductWide (multiplyWide a b) c d).2).toNat : ℤ) ≡
      (subtractProductWide (multiplyWide a b) c d).2.toNat [ZMOD fieldPrime] := by
    rw [hreduce, Int.natCast_mod]
    exact Int.mod_modEq _ _
  rw [mulSubMul]
  rcases subtractProductWide_spec (multiplyWide a b) c d with ⟨hmask, hvalue⟩ | ⟨hmask, hvalue⟩
  · rw [multiplyWide_spec] at hvalue
    zify at hvalue
    rw [hmask, sub_spec hcanonical (by decide), correction_spec.1, ← hvalue, add_sub_cancel_right,
      Nat.cast_zero, sub_zero]
    exact hresidue
  · rw [multiplyWide_spec] at hvalue
    zify at hvalue
    rw [hmask, sub_spec hcanonical (by decide), correction_spec.2]
    have hdiff : (a.toNat * b.toNat - c.toNat * d.toNat : ℤ) =
        (subtractProductWide (multiplyWide a b) c d).2.toNat - (2 ^ 32) ^ 16 := by
      linear_combination -hvalue
    rw [hdiff, Nat.cast_mul]
    exact hresidue.sub pow_512_modEq.symm

/-- **The field arithmetic is correct.** Products are exact, every number of 512 bits is reduced to
its canonical residue, and products, squares, differences and differences of products are those of
the field. -/
theorem field_arithmetic (a b c d : Number 8) (wide : Number 16) :
    (multiplyWide a b).toNat = a.toNat * b.toNat ∧
      (reduce wide).toNat = wide.toNat % fieldPrime ∧
      (mul a b).toNat = a.toNat * b.toNat % fieldPrime ∧ square a = mul a a ∧
      (a.toNat < fieldPrime → b.toNat < fieldPrime →
        ((sub a b).toNat : ℤ) = ((a.toNat : ℤ) - b.toNat) % fieldPrime) ∧
      ((mulSubMul a b c d).toNat : ℤ) =
        ((a.toNat : ℤ) * b.toNat - c.toNat * d.toNat) % fieldPrime ∧
      (reduce wide).toNat < fieldPrime ∧ (mul a b).toNat < fieldPrime ∧
      (a.toNat < fieldPrime → b.toNat < fieldPrime → (sub a b).toNat < fieldPrime) ∧
      (mulSubMul a b c d).toNat < fieldPrime := by
  have hpos : 0 < fieldPrime := by decide
  have hcanonical : ∀ {x : ℕ} {y : ℤ}, (x : ℤ) = y % fieldPrime → x < fieldPrime := by
    intro x y h
    have := Int.emod_lt_of_pos y (show (0 : ℤ) < fieldPrime by exact_mod_cast hpos)
    rw [← h] at this
    exact_mod_cast this
  refine ⟨multiplyWide_spec a b, reduce_spec wide, mul_spec a b, square_eq a, sub_spec,
    mulSubMul_spec a b c d, ?_, ?_, fun ha hb => hcanonical (sub_spec ha hb),
    hcanonical (mulSubMul_spec a b c d)⟩
  · rw [reduce_spec]
    exact Nat.mod_lt _ hpos
  · rw [mul_spec]
    exact Nat.mod_lt _ hpos

/-- The limbs of the number one. -/
def one : Number 8 :=
  ⟨[1, 0, 0, 0, 0, 0, 0, 0], rfl⟩

/-- The limbs of zero. -/
def zero : Number 8 :=
  ⟨[0, 0, 0, 0, 0, 0, 0, 0], rfl⟩

theorem field_arithmetic_zero_one : zero.toNat < fieldPrime ∧ one.toNat < fieldPrime ∧
    ((sub zero one).toNat : ℤ) = ((zero.toNat : ℤ) - one.toNat) % fieldPrime := by
  have hzero : zero.toNat < fieldPrime := by decide
  have hone : one.toNat < fieldPrime := by decide
  obtain ⟨-, -, -, -, hsub, -⟩ :=
    field_arithmetic zero one zero one ⟨List.replicate 16 0, rfl⟩
  exact ⟨hzero, hone, hsub hzero hone⟩

end MoMiner.Nexapow
