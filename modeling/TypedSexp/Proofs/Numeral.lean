import TypedSexp.Numeral

namespace TypedSexp.Numeral

theorem isDigit_toUInt8 {c : Char} (h : c.isDigit = true) :
    Byte.isDigit c.toNat.toUInt8 = true ∧ Byte.digitValue c.toNat.toUInt8 = c.toNat - '0'.toNat := by
  have hbounds : 48 ≤ c.toNat ∧ c.toNat ≤ 57 := Char.isDigit_iff_toNat.mp h
  have hvalue : c.toNat.toUInt8.toNat = c.toNat := by
    rw [Nat.toUInt8_eq, UInt8.toNat_ofNat']
    omega
  refine ⟨?_, by simp [Byte.digitValue, hvalue]⟩
  simp only [Byte.isDigit, Bool.and_eq_true, decide_eq_true_eq, UInt8.le_iff_toNat_le, hvalue]
  exact hbounds

def valueFrom (acc : Nat) (t : Text) : Nat :=
  t.foldl (fun acc c => acc * 10 + Byte.digitValue c) acc

def value (t : Text) : Nat := valueFrom 0 t

theorem valueFrom_cons (acc : Nat) (c : UInt8) (t : Text) :
    valueFrom acc (c :: t) = valueFrom (acc * 10 + Byte.digitValue c) t :=
  List.foldl_cons

theorem le_valueFrom (t : Text) (acc : Nat) : acc ≤ valueFrom acc t := by
  induction t generalizing acc with
  | nil => exact Nat.le_refl acc
  | cons c rest ih =>
      have hstep : acc ≤ acc * 10 + Byte.digitValue c := by omega
      rw [valueFrom_cons]
      exact Nat.le_trans hstep (ih _)

theorem valueFrom_digits {cs : List Char} (h : ∀ c ∈ cs, c.isDigit = true) (acc : Nat) :
    valueFrom acc (cs.map (·.toNat.toUInt8)) = Nat.ofDigitChars 10 cs acc := by
  induction cs generalizing acc with
  | nil => rfl
  | cons c cs ih =>
      obtain ⟨hc, hcs⟩ := List.forall_mem_cons.mp h
      rw [List.map_cons, valueFrom_cons, Nat.ofDigitChars_cons, Nat.mul_comm, ih hcs,
        (isDigit_toUInt8 hc).2]

theorem readFrom_of_digits {t : Text} (h : ∀ c ∈ t, Byte.isDigit c = true) {acc : Nat}
    (hacc : acc < limit) :
    readFrom acc t =
      if valueFrom acc t < limit then .ok (UInt64.ofNat (valueFrom acc t))
      else .error .outOfRange := by
  induction t generalizing acc with
  | nil => exact (if_pos hacc).symm
  | cons c rest ih =>
      obtain ⟨hc, hrest⟩ := List.forall_mem_cons.mp h
      rw [valueFrom_cons]
      simp only [readFrom, hc, if_true]
      split
      case isTrue hlt => exact ih hrest hlt
      case isFalse hge =>
        have hle := le_valueFrom rest (acc * 10 + Byte.digitValue c)
        rw [if_neg (by omega)]

theorem read_of_isNumeral {t : Text} (h : isNumeral t = true) :
    read t = if value t < limit then .ok (UInt64.ofNat (value t)) else .error .outOfRange := by
  cases t with
  | nil => simp [isNumeral] at h
  | cons c rest =>
      have hdigits : ∀ b ∈ c :: rest, Byte.isDigit b = true := by
        simpa [isNumeral] using h
      exact readFrom_of_digits hdigits (by decide)

theorem read_eq_ok_iff {t : Text} (h : isNumeral t = true) {n : UInt64} :
    read t = .ok n ↔ value t = n.toNat := by
  rw [read_of_isNumeral h]
  have hn : n.toNat < limit := n.toNat_lt_size
  split
  case isTrue hlt =>
    rw [Except.ok.injEq, ← UInt64.toNat_inj, UInt64.toNat_ofNat_of_lt' hlt]
  case isFalse hge =>
    simp only [reduceCtorEq, false_iff]
    omega

theorem write_ne_nil (n : UInt64) : write n ≠ [] := by
  simp [write, Text.ofNat]

theorem isDigit_of_mem_write {n : UInt64} {c : UInt8} (h : c ∈ write n) :
    Byte.isDigit c = true := by
  obtain ⟨d, hd, rfl⟩ := List.mem_map.mp h
  exact (isDigit_toUInt8 (Nat.isDigit_of_mem_toDigits (by omega) (by omega) hd)).1

theorem isNumeral_write (n : UInt64) : isNumeral (write n) = true := by
  simp only [isNumeral, Bool.and_eq_true, List.all_eq_true]
  exact ⟨by simp [write_ne_nil], fun c hc => isDigit_of_mem_write hc⟩

theorem value_write (n : UInt64) : value (write n) = n.toNat := by
  have hdigits : ∀ c ∈ Nat.toDigits 10 n.toNat, c.isDigit = true := fun c hc =>
    Nat.isDigit_of_mem_toDigits (by omega) (by omega) hc
  rw [value, write, Text.ofNat, valueFrom_digits hdigits, Nat.ofDigitChars_ten_toDigits]

theorem read_write (n : UInt64) : read (write n) = .ok n :=
  (read_eq_ok_iff (isNumeral_write n)).mpr (value_write n)

end TypedSexp.Numeral
