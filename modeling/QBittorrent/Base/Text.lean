import QBittorrent.Lib.Text
import Mathlib.Algebra.Order.Ring.Int

/-!
# Texts and numbers

`QChar::isSpace` and `QString::trimmed` on texts as lists of characters, `QByteArray::trimmed` on
bytes.
-/

namespace QBittorrent

namespace QString

/-- The characters of the separator categories, and those between tab and carriage return. -/
def isSpace (c : Char) : Bool :=
  let n := c.toNat
  n = 0x20 || (0x09 ≤ n && n ≤ 0x0D) || n = 0x85 || n = 0xA0 || n = 0x1680 ||
    (0x2000 ≤ n && n ≤ 0x200A) || n = 0x2028 || n = 0x2029 || n = 0x202F || n = 0x205F || n = 0x3000

def trimmed (text : List Char) : List Char := trim isSpace text

theorem trimmed_eq_self_iff {text : List Char} :
    trimmed text = text ↔ (∀ c ∈ text.head?, isSpace c = false) ∧
      ∀ c ∈ text.getLast?, isSpace c = false := by
  constructor
  · intro h
    rw [← h]
    exact ⟨fun _ => head?_trim, fun _ => getLast?_trim⟩
  · rintro ⟨hhead, hlast⟩
    exact trim_eq_self hhead hlast

@[simp] theorem trimmed_nil : trimmed [] = [] := rfl

@[simp] theorem trimmed_trimmed (text : List Char) : trimmed (trimmed text) = trimmed text :=
  trim_trim

/-- The number of decimal digits with at most one sign before them. -/
def number (text : List Char) : Option ℤ :=
  let negative := text.head? = some '-'
  let digits := if negative ∨ text.head? = some '+' then text.tail else text
  if digits ≠ [] ∧ digits.all Char.isDigit = true then
    let value : ℤ := digits.foldl (fun n c => 10 * n + (c.toNat - 48 : ℕ)) 0
    some (if negative then -value else value)
  else none

/-- `toLongLong`; there is no number where `ok` is not set. -/
def toLongLong (text : List Char) : Option ℤ :=
  (number (trimmed text)).filter fun n => -2 ^ 63 ≤ n ∧ n < 2 ^ 63

/-- `toInt`; there is no number where `ok` is not set. -/
def toInt (text : List Char) : Option ℤ :=
  (number (trimmed text)).filter fun n => -2 ^ 31 ≤ n ∧ n < 2 ^ 31

end QString

namespace QByteArray

/-- `isspace` of the C locale. -/
def isSpace (b : UInt8) : Bool := b = 32 ∨ (9 ≤ b ∧ b ≤ 13)

def trimmed (bytes : List UInt8) : List UInt8 := trim isSpace bytes

theorem count_trimmed {b : UInt8} (hb : isSpace b = false) (bytes : List UInt8) :
    (trimmed bytes).count b = bytes.count b := by
  obtain ⟨before, after, hsplit, hbefore, hafter⟩ := exists_eq_append_trim isSpace bytes
  have hnone : ∀ l : List UInt8, (∀ a ∈ l, isSpace a = true) → l.count b = 0 := fun l hl =>
    List.count_eq_zero_of_not_mem fun hmem => by
      rw [hl b hmem] at hb
      cases hb
  conv_rhs => rw [hsplit]
  rw [List.count_append, List.count_append, hnone before hbefore, hnone after hafter, trimmed]
  omega

end QByteArray

end QBittorrent
