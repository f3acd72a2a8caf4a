import Mathlib
import PhraseIndex.Config.Document
import PhraseIndex.Proofs.Legible

/-!
# The sweep timeout of a valid configuration

A configuration is valid with any finite number of seconds above zero, but a duration has fewer than `2 ^ 64` of them.
Valid configurations with fewer seconds have a timeout and the others have none (`Config.isSome_sweepTimeout?`), also
those that come from a document (`Config.validate_of_ofJson`). Opening an index aborts with the others only
(`Model.timeout_of_abort`), and with these it aborts after the corpus was opened (`Model.openAt_of_timeout`).

The order of positive doubles is that of their exponents and mantissas (`Decimal.lt_iff_of_positive`). A mantissa has
fifty-three bits unless the exponent is the least one, so that `2 ^ 64` seconds are reached with the exponent `12`
(`Duration.isSome_ofFloat?`).
-/

namespace PhraseIndex

namespace Decimal

open Float.Model

/-!
## What a double stands for

The words of doubles are taken apart in two ways, by the arithmetic on them and by `BinaryFormat.unpack`; the two agree.
-/

/-- The exact number of an unpacked value. -/
def ofUnpacked : UnpackedFloat → Binary
  | .notANumber => .nan
  | .infinity s => .infinite (s == .negative)
  | .zero s => .finite (s == .negative) 0 BinaryFormat.double.leastExponent
  | .finite s m e _ => .finite (s == .negative) m e

variable {x y : Float} {negative : Bool} {m n : Nat} {e f : Int}

theorem toNat_mantissa (b : BitVec Format.binary64.numBits) :
    (UnpackedFloat.unpackMantissa b).toNat = b.toNat % 2 ^ 52 := by
  rw [UnpackedFloat.unpackMantissa_def, BitVec.extractLsb'_toNat, Nat.shiftRight_zero]

theorem toNat_exponent (b : BitVec Format.binary64.numBits) :
    (UnpackedFloat.unpackExponent b).toNat = b.toNat / 2 ^ 52 % 2 ^ 11 := by
  rw [UnpackedFloat.unpackExponent_def, BitVec.extractLsb'_toNat, Nat.shiftRight_eq_div_pow]

theorem toNat_sign (b : BitVec Format.binary64.numBits) :
    (UnpackedFloat.unpackSign b).toNat = b.toNat / 2 ^ 63 % 2 := by
  rw [UnpackedFloat.unpackSign_def, BitVec.extractLsb'_toNat, Nat.shiftRight_eq_div_pow]
  rfl

theorem beq_negative (b : BitVec 1) : (UnpackedFloat.Sign.ofBitVec b == .negative) = (b.toNat == 1) := by
  revert b
  decide

/-- The number with this sign, exponent field and fraction. -/
def ofFields (negative : Bool) (field fraction : Nat) : Binary :=
  if field = 2 ^ 11 - 1 then
    if fraction = 0 then .infinite negative else .nan
  else if field = 0 then .finite negative fraction BinaryFormat.double.leastExponent
  else .finite negative (2 ^ 52 + fraction) (BinaryFormat.double.leastExponent + (field - 1 : Nat))

theorem unpack_eq (n : Nat) :
    BinaryFormat.double.unpack n = ofFields (n / 2 ^ 63 % 2 == 1) (n / 2 ^ 52 % 2 ^ 11) (n % 2 ^ 52) := by
  simp only [BinaryFormat.unpack, ofFields, beq_iff_eq]
  rfl

/-- The leading bit of a normal mantissa is not stored. -/
theorem toNat_one_append (m : BitVec 52) : (1#1 ++ m).toNat = 2 ^ 52 + m.toNat := by
  have h := Nat.two_pow_add_eq_or_of_lt m.isLt 1
  rw [Nat.mul_one] at h
  rw [BitVec.toNat_append, Nat.shiftLeft_eq, BitVec.toNat_ofNat, h]

/-- A word stands for what its fields stand for. -/
theorem ofUnpacked_unpack (b : BitVec Format.binary64.numBits) : ofUnpacked (UnpackedFloat.unpack .binary64 b) =
    ofFields ((UnpackedFloat.unpackSign b).toNat == 1) (UnpackedFloat.unpackExponent b).toNat
      (UnpackedFloat.unpackMantissa b).toNat := by
  have hlast : UnpackedFloat.unpackExponent b = -1#_ ↔
      (UnpackedFloat.unpackExponent b).toNat = 2 ^ 11 - 1 := BitVec.toNat_inj.symm
  have hfirst : UnpackedFloat.unpackExponent b = 0#_ ↔
      (UnpackedFloat.unpackExponent b).toNat = 0 := BitVec.toNat_inj.symm
  have hnone : UnpackedFloat.unpackMantissa b = 0#_ ↔
      (UnpackedFloat.unpackMantissa b).toNat = 0 := BitVec.toNat_inj.symm
  rw [UnpackedFloat.unpack, ofFields, ← beq_negative]
  simp only [← hlast, ← hfirst, ← hnone]
  split
  · split <;> rfl
  · split
    · next hsub =>
      split
      · next hm =>
        rw [hnone.1 hm]
        rfl
      · rw [ofUnpacked, hfirst.1 hsub]
        rfl
    · next hnormal =>
      have hpos : (UnpackedFloat.unpackExponent b).toNat ≠ 0 := fun h => hnormal (hfirst.2 h)
      have hexp : ((UnpackedFloat.unpackExponent b).toNat : Int) - ((1023 : Nat) + (52 : Nat)) =
          BinaryFormat.double.leastExponent + ((UnpackedFloat.unpackExponent b).toNat - 1 : Nat) := by
        have hleast : BinaryFormat.double.leastExponent = -1074 := by decide
        rw [hleast]
        omega
      rw [← hexp, ← toNat_one_append]
      rfl

theorem ofFloat_eq (x : Float) : ofFloat x = ofUnpacked x.toModel.unpack := by
  have hn : x.toBits.toNat = x.toModel.toBits.toBitVec.toNat := rfl
  rw [ofFloat, hn, Float.Model.unpack, ofUnpacked_unpack, toNat_mantissa, toNat_exponent, toNat_sign, unpack_eq]

theorem bounds_of_ofFields {negative' : Bool} {field fraction : Nat} (hf : fraction < 2 ^ 52)
    (h : ofFields negative field fraction = .finite negative' m e) :
    m < 2 ^ 53 ∧ (e = -1074 ∨ -1074 ≤ e ∧ 2 ^ 52 ≤ m) := by
  have hleast : BinaryFormat.double.leastExponent = -1074 := by decide
  unfold ofFields at h
  rw [hleast] at h
  split at h
  · split at h <;> cases h
  · split at h
    · cases h
      exact ⟨by omega, .inl rfl⟩
    · cases h
      exact ⟨by omega, .inr ⟨by omega, Nat.le_add_right _ _⟩⟩

/-- The mantissa of a double has at most fifty-three bits, and exactly so many unless its exponent is the least one. -/
theorem bounds_of_ofFloat (h : ofFloat x = .finite negative m e) :
    m < 2 ^ 53 ∧ (e = -1074 ∨ -1074 ≤ e ∧ 2 ^ 52 ≤ m) := by
  rw [ofFloat, unpack_eq] at h
  exact bounds_of_ofFields (Nat.mod_lt _ (by decide)) h

/-! ## Doubles in order -/

theorem lt_iff_compare : x < y ↔ x.toModel.unpack.compare y.toModel.unpack = some .lt := by
  have h : x < y ↔ decide (x.toModel.unpack.lt y.toModel.unpack = true) = true := Iff.rfl
  rw [h, decide_eq_true_iff, UnpackedFloat.lt, beq_iff_eq]

theorem unpack_zero : (0.0 : Float).toModel.unpack = .zero .positive := rfl

/-- A finite number above zero has a positive mantissa. -/
theorem exists_of_positive (hf : x.isFinite = true) (h : 0.0 < x) :
    ∃ m e hm, x.toModel.unpack = .finite .positive m e hm := by
  rw [lt_iff_compare, unpack_zero] at h
  have hf : x.toModel.unpack.isFinite = true := hf
  cases hx : x.toModel.unpack with
  | notANumber | infinity s => simp [hx, UnpackedFloat.isFinite] at hf
  | zero s => simp [hx, UnpackedFloat.compare] at h
  | finite s m e hm =>
    cases s with
    | positive => exact ⟨m, e, hm, rfl⟩
    | negative => simp [hx, UnpackedFloat.compare] at h

/-- Positive numbers are ordered by their exponents, and by their mantissas where these are equal. -/
theorem lt_iff_of_positive {hm : 0 < m} {hn : 0 < n}
    (hx : x.toModel.unpack = .finite .positive m e hm) (hy : y.toModel.unpack = .finite .positive n f hn) :
    x < y ↔ e < f ∨ e = f ∧ m < n := by
  rw [lt_iff_compare, hx, hy, UnpackedFloat.compare, Option.some_inj, Ordering.then_eq_lt, Int.compare_eq_lt,
    Nat.compare_eq_lt, Int.compare_eq_eq]

/-- A quotient is rounded to no more than the number that is divided. -/
theorem roundDiv_le (tie : Tie) (num : Nat) {den : Nat} (h : 0 < den) : roundDiv tie num den ≤ num := by
  have hnear := (roundDiv_near tie num h).2
  have hnum : num ≤ num * den := Nat.le_mul_of_pos_right num h
  have hle : 2 * roundDiv tie num den * den ≤ (2 * num + 1) * den := by
    rw [Nat.add_mul, Nat.mul_assoc, Nat.mul_assoc]
    omega
  have hhalf := Nat.le_of_mul_le_mul_right hle h
  omega

theorem roundDiv_one (tie : Tie) (n : Nat) : roundDiv tie n 1 = n := by
  have h := roundDiv_near tie n Nat.one_pos
  omega

end Decimal

/-! ## The timeout -/

namespace Duration

/-- The least number of seconds that no duration has. -/
def limit : Float := 18446744073709551616.0

theorem unpack_limit : limit.toModel.unpack = .finite .positive (2 ^ 52) 12 (by decide) := rfl

theorem isSome_ofNanoseconds? {n : Nat} : (ofNanoseconds? n).isSome ↔ n / perSecond < 2 ^ 64 := by
  unfold ofNanoseconds?
  split
  · next h => exact iff_of_true rfl h
  · next h => exact iff_of_false (by simp) h

/-- A mantissa of fifty-three bits, shifted to the left. -/
theorem lt_two_pow_iff {m k : Nat} (hlow : 2 ^ 52 ≤ m) (hhigh : m < 2 ^ 53) : m * 2 ^ k < 2 ^ 64 ↔ k < 12 := by
  constructor
  · intro h
    by_contra hk
    have hpow : 2 ^ 12 ≤ 2 ^ k := Nat.pow_le_pow_right (by decide) (Nat.not_lt.1 hk)
    have hle : 2 ^ 52 * 2 ^ 12 ≤ m * 2 ^ k := Nat.mul_le_mul hlow hpow
    omega
  · intro hk
    calc m * 2 ^ k ≤ m * 2 ^ 11 := Nat.mul_le_mul_left m (Nat.pow_le_pow_right (by decide) (by omega))
      _ < 2 ^ 53 * 2 ^ 11 := Nat.mul_lt_mul_of_pos_right hhigh (by decide)
      _ = 2 ^ 64 := by decide

/-- Whether the seconds pass the greatest duration is seen from their exponent. -/
theorem isSome_ofFloat? {x : Float} {m : Nat} {e : Int} (h : Decimal.ofFloat x = .finite false m e) :
    (ofFloat? x).isSome ↔ e < 12 := by
  obtain ⟨hm, he⟩ := Decimal.bounds_of_ofFloat h
  simp only [ofFloat?, h, Bool.false_and, Bool.false_eq_true, ↓reduceIte, isSome_ofNanoseconds?]
  by_cases hneg : e < 0
  · -- below one unit the rounded number is at most the one that is rounded
    refine iff_of_true ?_ (by omega)
    have hscale : e.toNat = 0 := by omega
    rw [hscale]
    have hle := Decimal.roundDiv_le .even (m * Nat.pow 2 0 * perSecond) (Nat.two_pow_pos (-e).toNat)
    have hone : m * Nat.pow 2 0 = m := Nat.mul_one m
    rw [hone] at hle ⊢
    calc _ ≤ m * perSecond / perSecond := Nat.div_le_div_right hle
      _ = m := Nat.mul_div_cancel m (by decide)
      _ < 2 ^ 64 := Nat.lt_trans hm (by decide)
  · obtain ⟨k, rfl⟩ := Int.eq_ofNat_of_zero_le (Int.not_lt.1 hneg)
    have hscale : (-(k : Int)).toNat = 0 := by omega
    have hone : Nat.pow 2 0 = 1 := rfl
    rw [hscale, Int.toNat_natCast, hone, Decimal.roundDiv_one, Nat.mul_div_cancel _ (by decide : 0 < perSecond)]
    exact (lt_two_pow_iff (by omega) hm).trans (by omega)

end Duration

namespace Config

variable {c : Config}

theorem positive_of_validate (h : c.validate = .ok ()) : c.sweepSeconds.isFinite = true ∧ 0.0 < c.sweepSeconds := by
  unfold validate at h
  obtain ⟨-, -, h⟩ := bind_eq_ok_iff.1 h
  obtain ⟨-, -, h⟩ := bind_eq_ok_iff.1 h
  obtain ⟨_, hseconds, -⟩ := bind_eq_ok_iff.1 h
  rwa [require_eq_ok_iff, Bool.and_eq_true, decide_eq_true_iff] at hseconds

/-- A document is only accepted with valid settings. -/
theorem validate_of_ofJson {text : Bytes} (h : ofJson text = .ok c) : c.validate = .ok () := by
  unfold ofJson at h
  split at h
  · cases h
  · obtain ⟨_, hvalid, h⟩ := bind_eq_ok_iff.1 h
    cases h
    exact hvalid

/-- A valid configuration has a timeout exactly if its seconds are below the limit. -/
theorem isSome_sweepTimeout? (h : c.validate = .ok ()) :
    c.sweepTimeout?.isSome ↔ c.sweepSeconds < Duration.limit := by
  obtain ⟨hfinite, hpos⟩ := positive_of_validate h
  obtain ⟨m, e, hm, hx⟩ := Decimal.exists_of_positive hfinite hpos
  have hexact : Decimal.ofFloat c.sweepSeconds = .finite false m e := by
    rw [Decimal.ofFloat_eq, hx]
    rfl
  obtain ⟨-, he⟩ := Decimal.bounds_of_ofFloat hexact
  rw [sweepTimeout?, Duration.isSome_ofFloat? hexact, Decimal.lt_iff_of_positive hx Duration.unpack_limit]
  omega

/-- The configuration with the longest duration for its timeout, whose seconds are rounded to the limit. -/
def longest : Config := withSweepTimeout {} ⟨2 ^ 64 - 1, 999999999⟩

/-- A document that asks for as many seconds. -/
def longestText : Bytes := "\x7b\"gc_timeout_secs\": 18446744073709551616\x7d".toUTF8.toList

/-- The configuration with the greatest number of seconds below the limit. -/
def greatest : Config := { sweepSeconds := 18446744073709549568.0 }

end Config

/-! ## Opening with it -/

theorem Sweeper.kind_of_resume {s : Store} {limit : PrefixLength} {batchSize : Nat} {e : Error}
    (h : resume s limit batchSize = .error e) : e.kind = .corruption := by
  rcases bind_eq_error_iff.1 h with h | ⟨pending, -, h⟩
  · rcases bind_eq_error_iff.1 h with h | ⟨domains, -, h⟩
    · obtain ⟨key, -, hkey⟩ := mapM_error h
      exact Key.kind_of_domainOf hkey
    · cases h
  · cases h

namespace Model

variable {d d' : Durable} {path : Path} {config : Config} {s : Store} {e : Error}

theorem kind_of_storedStreams (h : storedStreams s = .error e) : e.kind = .serialization := by
  unfold storedStreams Streams.decode at h
  split at h
  · split at h
    · cases h
    · split at h <;> cases h
      rfl
  · cases h

theorem kind_of_storedManifest (h : storedManifest s = .error e) : e.kind = .serialization := by
  unfold storedManifest Manifest.decode at h
  split at h
  · split at h
    · cases h
    · split at h <;> cases h
      rfl
  · cases h

/-- Nothing else than the timeout makes opening abort. -/
theorem timeout_of_abort (h : (openAt d path config).1 = .error e) (he : e.kind = .abort) :
    config.sweepTimeout?.isSome = false := by
  rcases cause_of_openAt h with hp | ⟨d₁, -, hs | hm | ⟨manifest, disk, hc⟩ | ⟨hnone, -⟩ | hw⟩
  · rcases kind_of_prepare hp with hk | hk <;> cases he.symm.trans hk
  · cases he.symm.trans (kind_of_storedStreams hs)
  · cases he.symm.trans (kind_of_storedManifest hm)
  · cases he.symm.trans (Corpus.kind_of_openAt hc)
  · exact hnone
  · cases he.symm.trans (Sweeper.kind_of_resume hw)

/-- The timeout is looked at after the corpus was opened. -/
theorem openAt_of_timeout {seconds : Float} {m : Model} (hv : config.validate = .ok ())
    (ht : config.sweepTimeout?.isSome = false)
    (h : openAt d path { config with sweepSeconds := seconds } = (.ok m, d')) :
    openAt d path config = (.error .timeoutOverflow, d') := by
  rcases openAt_cases d path { config with sweepSeconds := seconds } with
    ⟨_, he⟩ | ⟨d₁, hp, ⟨_, he⟩ | ⟨streams, manifest, corpus, disk, hs, hm, hc,
      ⟨_, he⟩ | ⟨c, sweeper, rfl, -, hopen⟩⟩⟩
  · cases he.symm.trans h
  · cases he.symm.trans h
  · cases he.symm.trans h
  · have hprepare : prepare d path config = .ok d₁ := prepare_eq_ok_iff.2 ⟨hv, (prepare_eq_ok_iff.1 hp).2⟩
    cases hopen.symm.trans h
    simp only [openAt, hprepare, hs, hm, hc, ht, require]
    rfl

theorem exists_open_of_isOk {d : Durable} (h : (openAt d path config).1.isOk = true) :
    ∃ m d', openAt d path config = (.ok m, d') := by
  cases hopen : openAt d path config with
  | mk r d' =>
    rw [hopen] at h
    cases r with
    | error e => cases h
    | ok m => exact ⟨m, d', rfl⟩

/-- With another timeout a new index is opened. -/
theorem exists_open : ∃ m d',
    openAt ⟨{}, Run.emptyDisk⟩ Run.modelPath { Config.longest with sweepSeconds := 120.0 } = (.ok m, d') :=
  exists_open_of_isOk (by decide +kernel)

/-- A valid configuration, put together or read from a document, has a timeout exactly if its seconds are below the
limit. With fewer seconds opening an index never aborts; with the others it does so wherever it would succeed with
another timeout, and leaves the same behind. -/
theorem timeout_iff_lt (config : Config)
    (haccepted : config.validate = .ok () ∨ ∃ text, Config.ofJson text = .ok config) :
    (config.sweepTimeout?.isSome ↔ config.sweepSeconds < Duration.limit) ∧
      (config.sweepSeconds < Duration.limit →
        ∀ d path e d', openAt d path config = (.error e, d') → e.kind ≠ .abort) ∧
      (¬config.sweepSeconds < Duration.limit → ∀ d path seconds m d',
        openAt d path { config with sweepSeconds := seconds } = (.ok m, d') →
          openAt d path config = (.error .timeoutOverflow, d')) := by
  have hv : config.validate = .ok () := haccepted.elim id fun ⟨_, hdocument⟩ => Config.validate_of_ofJson hdocument
  have hiff := Config.isSome_sweepTimeout? hv
  refine ⟨hiff, ?_, ?_⟩
  · intro hlt d path e d' h hkind
    have hnone := timeout_of_abort (congrArg Prod.fst h) hkind
    rw [hiff.2 hlt] at hnone
    cases hnone
  · intro hge d path seconds m d' h
    exact openAt_of_timeout hv (Bool.eq_false_iff.2 fun hsome => hge (hiff.1 hsome)) h

theorem timeout_iff_lt_greatest :
    (Config.greatest.sweepTimeout?.isSome ∧
        ∀ d path e d', openAt d path Config.greatest = (.error e, d') → e.kind ≠ .abort) ∧
      ∃ d', openAt ⟨{}, Run.emptyDisk⟩ Run.modelPath Config.longest = (.error .timeoutOverflow, d') := by
  have hgreatest : Config.greatest.validate = .ok () := toOption_eq_some_iff.1 (by decide +kernel)
  have hlongest : Config.ofJson Config.longestText = .ok Config.longest := toOption_eq_some_iff.1 (by decide +kernel)
  have hlt : Config.greatest.sweepSeconds < Duration.limit := by decide +kernel
  have hge : ¬Config.longest.sweepSeconds < Duration.limit := by decide +kernel
  obtain ⟨m, d', hopen⟩ := exists_open
  obtain ⟨hsome, hfine, -⟩ := timeout_iff_lt Config.greatest (.inl hgreatest)
  obtain ⟨-, -, habort⟩ := timeout_iff_lt Config.longest (.inr ⟨_, hlongest⟩)
  exact ⟨⟨hsome.2 hlt, hfine hlt⟩, d', habort hge _ _ _ _ _ hopen⟩

/-- The configuration is accepted, from a document too, and opening a new index with it aborts. -/
theorem longest_aborts :
    Config.ofJson Config.longestText = .ok Config.longest ∧
      Config.longest.validate = .ok () ∧ Config.longest.sweepTimeout? = none ∧
      (openAt ⟨{}, Run.emptyDisk⟩ Run.modelPath Config.longest).1 = .error .timeoutOverflow := by
  have hdocument : Config.ofJson Config.longestText = .ok Config.longest := toOption_eq_some_iff.1 (by decide +kernel)
  have hvalid := Config.validate_of_ofJson hdocument
  have hnone : Config.longest.sweepTimeout? = none := by decide +kernel
  obtain ⟨m, d', hopen⟩ := exists_open
  refine ⟨hdocument, hvalid, hnone, ?_⟩
  rw [openAt_of_timeout hvalid (by rw [hnone]; rfl) hopen]

end Model

end PhraseIndex
