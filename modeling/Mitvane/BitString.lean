import Mathlib.Algebra.Order.Ring.Nat
import Mathlib.Tactic.Ring

/-! Strings of bits, most significant bit first: their value as a number, the numbers of
a width as strings, bytes, and parsers that take bits off the front. -/
set_option autoImplicit false

namespace BitString

def value : List Bool → Nat
  | [] => 0
  | b :: bits => b.toNat*2^bits.length+value bits

def ofNat : Nat → Nat → List Bool
  | 0, _ => []
  | w+1, n => n.testBit w :: ofNat w n

def ofBytes : List UInt8 → List Bool
  | [] => []
  | b :: bytes => ofNat 8 b.toNat ++ ofBytes bytes

@[simp] theorem length_ofNat (w n : Nat) : (ofNat w n).length = w := by
  induction w with
  | zero => rfl
  | succ w ih => simp [ofNat,ih]

@[simp] theorem length_ofBytes (bytes : List UInt8) : (ofBytes bytes).length = 8*bytes.length := by
  induction bytes with
  | nil => rfl
  | cons b bytes ih => simp [ofBytes,ih]; omega

theorem ofBytes_append (bytes rest : List UInt8) :
    ofBytes (bytes ++ rest) = ofBytes bytes ++ ofBytes rest := by
  induction bytes with
  | nil => rfl
  | cons b bytes ih => simp [ofBytes,ih]

theorem ofBytes_drop (bytes : List UInt8) (k : Nat) :
    ofBytes (bytes.drop k) = (ofBytes bytes).drop (8*k) := by
  induction k generalizing bytes with
  | zero => rfl
  | succ k ih =>
    cases bytes with
    | nil => rfl
    | cons b bytes =>
      rw [List.drop_succ_cons,ih,ofBytes,Nat.mul_succ,Nat.add_comm,← List.drop_drop,
        List.drop_left' (length_ofNat 8 b.toNat)]

theorem ofBytes_take (bytes : List UInt8) (k : Nat) :
    ofBytes (bytes.take k) = (ofBytes bytes).take (8*k) := by
  induction k generalizing bytes with
  | zero => rfl
  | succ k ih =>
    cases bytes with
    | nil => rfl
    | cons b bytes =>
      have hlen : 8*(k+1) = (ofNat 8 b.toNat).length+8*k := by rw [length_ofNat]; omega
      rw [List.take_succ_cons,ofBytes,ofBytes,ih,hlen,List.take_length_add_append]

theorem value_append (bits rest : List Bool) :
    value (bits ++ rest) = value bits*2^rest.length+value rest := by
  induction bits with
  | nil => simp [value]
  | cons b bits ih =>
    simp only [List.cons_append,value,List.length_append,ih,Nat.pow_add]
    ring

theorem value_lt (bits : List Bool) : value bits < 2^bits.length := by
  induction bits with
  | nil => simp [value]
  | cons b bits ih =>
    cases b with
    | false => simp only [value,Bool.toNat_false,List.length_cons,Nat.pow_succ]; omega
    | true => simp only [value,Bool.toNat_true,List.length_cons,Nat.pow_succ]; omega

theorem value_ofNat (w n : Nat) : value (ofNat w n) = n % 2^w := by
  induction w with
  | zero => simp [ofNat,value,Nat.mod_one]
  | succ w ih =>
    rw [ofNat,value,length_ofNat,ih,Nat.mod_pow_succ,Nat.toNat_testBit]
    ring

theorem ofNat_mod (w n : Nat) : ofNat w (n % 2^w) = ofNat w n := by
  have h : ∀ k, k ≤ w → ofNat k (n % 2^w) = ofNat k n := by
    intro k
    induction k with
    | zero => simp [ofNat]
    | succ k ih =>
      intro hk
      rw [ofNat,ofNat,ih (by omega),Nat.testBit_mod_two_pow]
      simp [show k < w by omega]
  exact h w (Nat.le_refl w)

theorem value_injective {bits rest : List Bool} (hl : bits.length = rest.length)
    (h : value bits = value rest) : bits = rest := by
  induction bits generalizing rest with
  | nil => exact (List.eq_nil_of_length_eq_zero hl.symm).symm
  | cons b bits ih =>
    cases rest with
    | nil => cases hl
    | cons c rest =>
      have hlen : bits.length = rest.length := Nat.succ.inj hl
      have hb := value_lt bits
      have hc := value_lt rest
      simp only [value,hlen] at h hb
      cases b with
      | false =>
        cases c with
        | false => rw [ih hlen (by simpa using h)]
        | true => simp only [Bool.toNat_false,Bool.toNat_true] at h; omega
      | true =>
        cases c with
        | false => simp only [Bool.toNat_false,Bool.toNat_true] at h; omega
        | true => rw [ih hlen (by simpa using h)]

theorem ofNat_value (bits : List Bool) : ofNat bits.length (value bits) = bits :=
  value_injective (length_ofNat _ _) (by rw [value_ofNat,Nat.mod_eq_of_lt (value_lt bits)])

theorem ofNat_add (w w' n : Nat) : ofNat (w+w') n = ofNat w (n/2^w') ++ ofNat w' n := by
  apply value_injective
  · simp
  · rw [value_append,value_ofNat,value_ofNat,value_ofNat,length_ofNat,Nat.add_comm w w',
      Nat.pow_add,Nat.mod_mul]
    ring

theorem value_middle (before bits after : List Bool) :
    value (before ++ bits ++ after)/2^after.length % 2^bits.length = value bits := by
  have hpos : 0 < 2^after.length := Nat.two_pow_pos _
  have hdiv : value (before ++ bits ++ after)/2^after.length = value (before ++ bits) := by
    rw [value_append (before ++ bits) after,Nat.add_comm,Nat.add_mul_div_right _ _ hpos,
      Nat.div_eq_of_lt (value_lt after),Nat.zero_add]
  rw [hdiv,value_append,Nat.add_comm,Nat.add_mul_mod_self_right,
    Nat.mod_eq_of_lt (value_lt bits)]

theorem value_slice {bits : List Bool} {off n : Nat} (h : off+n ≤ bits.length) :
    value ((bits.drop off).take n) = value bits/2^(bits.length-(off+n)) % 2^n := by
  have hsplit : bits = bits.take off ++ (bits.drop off).take n ++ bits.drop (off+n) := by
    rw [List.append_assoc,← List.drop_drop,List.take_append_drop,List.take_append_drop]
  have hmid := value_middle (bits.take off) ((bits.drop off).take n) (bits.drop (off+n))
  rw [← hsplit] at hmid
  rw [← hmid,List.length_drop,List.length_take,List.length_drop,Nat.min_eq_left (by omega)]

theorem value_zeros (z : Nat) : value (List.replicate z false) = 0 := by
  induction z with
  | zero => rfl
  | succ z ih => simpa [List.replicate_succ,value] using ih

theorem ofNat_mul_pow (w z n : Nat) : ofNat (w+z) (n*2^z) = ofNat w n ++ List.replicate z false := by
  have hzero : ∀ z m, ofNat z (m*2^z) = List.replicate z false := by
    intro z m
    apply value_injective
    · simp
    · rw [value_ofNat,Nat.mul_mod_left,value_zeros]
  rw [ofNat_add,Nat.mul_div_cancel _ (Nat.two_pow_pos z),hzero]

theorem ofNat_uint8 (n : Nat) : ofNat 8 (UInt8.ofNat n).toNat = ofNat 8 n := by
  rw [UInt8.toNat_ofNat',ofNat_mod]

theorem ofBytes_injective {bytes rest : List UInt8} (h : ofBytes bytes = ofBytes rest) :
    bytes = rest := by
  induction bytes generalizing rest with
  | nil =>
    cases rest with
    | nil => rfl
    | cons b rest => cases h
  | cons a bytes ih =>
    cases rest with
    | nil => cases h
    | cons b rest =>
      obtain ⟨hab,hrest⟩ := List.append_inj h (by simp)
      have hval := congrArg value hab
      rw [value_ofNat,value_ofNat,Nat.mod_eq_of_lt a.toNat_lt,Nat.mod_eq_of_lt b.toNat_lt] at hval
      rw [UInt8.toNat_inj.mp hval,ih hrest]

/-- The first `k` bytes of a string that is continued with zeros. -/
def toBytes : Nat → List Bool → List UInt8
  | 0, _ => []
  | k+1, bits =>
    UInt8.ofNat (value (bits.take 8)*2^(8-(bits.take 8).length)) :: toBytes k (bits.drop 8)

@[simp] theorem length_toBytes (k : Nat) (bits : List Bool) : (toBytes k bits).length = k := by
  induction k generalizing bits with
  | zero => rfl
  | succ k ih => simp [toBytes,ih]

theorem ofBytes_toBytes {k : Nat} {bits : List Bool} (h : bits.length ≤ 8*k) :
    ofBytes (toBytes k bits) = bits ++ List.replicate (8*k-bits.length) false := by
  induction k generalizing bits with
  | zero =>
    rw [List.eq_nil_of_length_eq_zero (by omega : bits.length = 0)]
    rfl
  | succ k ih =>
    have hfront : ofNat 8 (value (bits.take 8)*2^(8-(bits.take 8).length)) =
        bits.take 8 ++ List.replicate (8-(bits.take 8).length) false := by
      have hlen : (bits.take 8).length+(8-(bits.take 8).length) = 8 := by
        rw [List.length_take]
        omega
      have hsplit := ofNat_mul_pow (bits.take 8).length (8-(bits.take 8).length)
        (value (bits.take 8))
      rw [hlen,ofNat_value] at hsplit
      exact hsplit
    rw [toBytes,ofBytes,ofNat_uint8,hfront,ih (by rw [List.length_drop]; omega),List.append_assoc,
      List.length_take,List.length_drop]
    by_cases hlong : 8 ≤ bits.length
    · rw [Nat.min_eq_left hlong,Nat.sub_self,List.replicate_zero,List.nil_append,
        ← List.append_assoc,List.take_append_drop]
      congr 2
      omega
    · rw [Nat.min_eq_right (by omega),List.take_of_length_le (by omega),
        List.drop_eq_nil_of_le (by omega),List.nil_append,List.replicate_append_replicate]
      congr 2
      omega

theorem toBytes_ofBytes (bytes : List UInt8) : toBytes bytes.length (ofBytes bytes) = bytes :=
  ofBytes_injective (by rw [ofBytes_toBytes (by simp)]; simp)

/-- A parser takes bits off the front of a string, or fails. -/
def Parser (α : Type) := List Bool → Option (α × List Bool)

namespace Parser
variable {α β : Type}

instance : Monad Parser where
  pure a := fun bits => some (a,bits)
  bind p f := fun bits => (p bits).bind (fun r => f r.1 r.2)

theorem pure_apply (a : α) (bits : List Bool) : (pure a : Parser α) bits = some (a,bits) := rfl

theorem bind_apply (p : Parser α) (f : α → Parser β) (bits : List Bool) :
    (p >>= f) bits = (p bits).bind (fun r => f r.1 r.2) := rfl

def number (n : Nat) : Parser Nat := fun bs =>
  if n ≤ bs.length then some (value (bs.take n),bs.drop n) else none

def bytes (n : Nat) : Parser (List UInt8) := fun bs =>
  if n ≤ bs.length then some (toBytes ((n+7)/8) (bs.take n),bs.drop n) else none

/-- Wherever the string starts with `code`, the parser takes it off and returns `a`. -/
def Accepts (p : Parser α) (code : List Bool) (a : α) : Prop :=
  ∀ rest, p (code ++ rest) = some (a,rest)

theorem accepts_number {w n : Nat} (h : n < 2^w) : Accepts (number w) (ofNat w n) n := by
  intro rest
  have hlen := length_ofNat w n
  rw [number,if_pos (by rw [List.length_append]; omega),List.take_left' hlen,
    List.drop_left' hlen,value_ofNat,Nat.mod_eq_of_lt h]

theorem accepts_toBytes (bits : List Bool) :
    Accepts (bytes bits.length) bits (toBytes ((bits.length+7)/8) bits) := by
  intro rest
  rw [bytes,if_pos (by rw [List.length_append]; omega),List.take_left' rfl,List.drop_left' rfl]

theorem accepts_bytes (data : List UInt8) :
    Accepts (bytes (8*data.length)) (ofBytes data) data := by
  have hbits := accepts_toBytes (ofBytes data)
  have hcount : (8*data.length+7)/8 = data.length := by omega
  rw [length_ofBytes,hcount,toBytes_ofBytes] at hbits
  exact hbits

end Parser

end BitString
