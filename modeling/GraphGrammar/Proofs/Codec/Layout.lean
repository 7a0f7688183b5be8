import Mathlib.Algebra.Group.Nat.Defs
import GraphGrammar.Codec.Layout

/-!
# Readers undo writers

A reader undoes a writer when it takes from the front of the bytes exactly what the writer writes,
and reads nothing that the writer does not write. What was read and what is left over are then
determined by the bytes. The readers of the byte layout undo its writers, for the values whose
numbers fit into the bytes that are set aside for them.

## Main definitions

* `GraphGrammar.ByteReader.Undoes` — a reader undoes a writer, for the values of some kind.

## Main results

* `GraphGrammar.ofLittleEndian_littleEndian`, `GraphGrammar.littleEndian_ofLittleEndian` — numbers.
* `GraphGrammar.ByteReader.undoes_number`, `undoes_text`, `undoes_list` — the readers.
-/

namespace GraphGrammar

/-! ### Numbers -/

theorem length_littleEndian (k n : Nat) : (littleEndian k n).length = k := by
  induction k generalizing n with
  | zero => rfl
  | succ k ih => rw [littleEndian, List.length_cons, ih]

theorem ofLittleEndian_lt (bytes : List UInt8) : ofLittleEndian bytes < 256 ^ bytes.length := by
  induction bytes with
  | nil => exact Nat.one_pos
  | cons b bytes ih =>
    have hb : b.toNat < 256 := b.toNat_lt
    rw [ofLittleEndian, List.length_cons, Nat.pow_succ]
    omega

/-- **A number that fits** is read as it was written. -/
theorem ofLittleEndian_littleEndian {k n : Nat} (h : n < 256 ^ k) :
    ofLittleEndian (littleEndian k n) = n := by
  induction k generalizing n with
  | zero => rw [Nat.pow_zero] at h; rw [littleEndian, ofLittleEndian]; omega
  | succ k ih =>
    rw [Nat.pow_succ] at h
    have hbyte : (UInt8.ofNat n).toNat = n % 256 := by simp
    rw [littleEndian, ofLittleEndian, hbyte, ih (by omega)]
    omega

/-- **Bytes** are written as they were read. -/
theorem littleEndian_ofLittleEndian (bytes : List UInt8) :
    littleEndian bytes.length (ofLittleEndian bytes) = bytes := by
  induction bytes with
  | nil => rfl
  | cons b bytes ih =>
    have hb : b.toNat < 256 := b.toNat_lt
    have hfirst : UInt8.ofNat (b.toNat + 256 * ofLittleEndian bytes) = b := by
      refine UInt8.toNat_inj.mp ?_
      simp only [UInt8.toNat_ofNat']
      omega
    have hrest : (b.toNat + 256 * ofLittleEndian bytes) / 256 = ofLittleEndian bytes := by omega
    rw [List.length_cons, ofLittleEndian, littleEndian, hfirst, hrest, ih]

/-! ### Texts -/

theorem toList_loop_eq (bytes : ByteArray) (i : Nat) (front : List UInt8) :
    ByteArray.toList.loop bytes i front = front.reverse ++ bytes.data.toList.drop i := by
  fun_induction ByteArray.toList.loop bytes i front with
  | case1 i front hlt ih =>
    have hi : i < bytes.data.toList.length := by simpa using hlt
    have hget : bytes.get! i = bytes.data.toList[i] := by
      simp only [ByteArray.get!, Array.getElem_toList]
      exact getElem!_pos bytes.data i (by simpa using hlt)
    rw [ih, List.drop_eq_getElem_cons hi, hget, List.reverse_cons, List.append_assoc,
      List.singleton_append]
  | case2 i front hge =>
    have hle : bytes.data.toList.length ≤ i := by simpa using hge
    rw [List.drop_eq_nil_of_le hle, List.append_nil]

theorem toList_eq_toList_data (bytes : ByteArray) : bytes.toList = bytes.data.toList := by
  rw [ByteArray.toList, toList_loop_eq, List.reverse_nil, List.nil_append, List.drop_zero]

/-- **Bytes are a text** exactly when they are the bytes of this text. -/
theorem fromUTF8?_eq_some_iff {bytes : List UInt8} {s : String} :
    String.fromUTF8? ⟨bytes.toArray⟩ = some s ↔ bytes = s.toUTF8.toList := by
  rw [toList_eq_toList_data, String.fromUTF8?]
  constructor
  · intro h
    split at h
    · next hvalid =>
      rw [← Option.some.inj h]
      rfl
    · cases h
  · rintro rfl
    exact dif_pos s.isValidUTF8

theorem length_toList_toUTF8 (s : String) : s.toUTF8.toList.length = s.utf8ByteSize := by
  rw [toList_eq_toList_data, ← String.size_toByteArray]
  rfl

namespace ByteReader

variable {α β : Type}

/-- The reader takes from the front of the bytes what the writer writes of a value of some kind, and
reads nothing else. -/
def Undoes (read : ByteReader α) (write : α → List UInt8) (kind : α → Prop) : Prop :=
  ∀ (input : List UInt8) (a : α) (rest : List UInt8),
    read input = some (a, rest) ↔ kind a ∧ input = write a ++ rest

/-- What follows a reader works on what it read and left over. -/
theorem Undoes.bind_eq_some_iff {read : ByteReader α} {write : α → List UInt8} {kind : α → Prop}
    (h : read.Undoes write kind) {input : List UInt8} {next : α × List UInt8 → Option β} {b : β} :
    (read input >>= next) = some b ↔
      ∃ a rest, kind a ∧ input = write a ++ rest ∧ next (a, rest) = some b := by
  rw [Option.bind_eq_bind, Option.bind_eq_some_iff]
  constructor
  · rintro ⟨⟨a, rest⟩, hread, hnext⟩
    obtain ⟨hkind, hinput⟩ := (h input a rest).mp hread
    exact ⟨a, rest, hkind, hinput, hnext⟩
  · rintro ⟨a, rest, hkind, hinput, hnext⟩
    exact ⟨(a, rest), (h input a rest).mpr ⟨hkind, hinput⟩, hnext⟩

theorem undoes_bytes (n : Nat) : (bytes n).Undoes (fun taken => taken) fun taken =>
    taken.length = n := by
  intro input taken rest
  rw [bytes]
  constructor
  · intro h
    split at h
    · next hle =>
      cases h
      exact ⟨List.length_take_of_le hle, (List.take_append_drop n input).symm⟩
    · cases h
  · rintro ⟨rfl, rfl⟩
    rw [if_pos (by simp), List.take_left, List.drop_left]

/-- **Numbers.** -/
theorem undoes_number (k : Nat) : (number k).Undoes (littleEndian k) fun n => n < 256 ^ k := by
  intro input n rest
  simp only [number, (undoes_bytes k).bind_eq_some_iff, Option.some.injEq, Prod.mk.injEq]
  constructor
  · rintro ⟨taken, rest', rfl, rfl, rfl, rfl⟩
    exact ⟨ofLittleEndian_lt taken, by rw [littleEndian_ofLittleEndian]⟩
  · rintro ⟨hlt, rfl⟩
    exact ⟨_, rest, length_littleEndian k n, rfl, ofLittleEndian_littleEndian hlt, rfl⟩

theorem undoes_word : (number 8).Undoes wordBytes fun n => n < 2 ^ 64 := undoes_number 8

theorem undoes_word32 :
    word32.Undoes (fun word => littleEndian 4 word.toNat) fun _ => True := by
  intro input word rest
  simp only [word32, (undoes_number 4).bind_eq_some_iff, Option.some.injEq, Prod.mk.injEq, true_and]
  constructor
  · rintro ⟨n, rest', hlt, rfl, rfl, rfl⟩
    rw [UInt32.toNat_ofNat_of_lt' hlt]
  · rintro rfl
    exact ⟨_, rest, word.toNat_lt, rfl, UInt32.ofNat_toNat, rfl⟩

/-- **Texts.** -/
theorem undoes_text : text.Undoes textBytes fun s => s.utf8ByteSize < 2 ^ 64 := by
  intro input s rest
  simp only [text, undoes_word.bind_eq_some_iff, (undoes_bytes _).bind_eq_some_iff]
  simp only [Option.bind_eq_bind, Option.bind_eq_some_iff, fromUTF8?_eq_some_iff,
    Option.some.injEq, Prod.mk.injEq]
  constructor
  · rintro ⟨n, _, hlt, rfl, taken, rest', rfl, rfl, s', rfl, rfl, rfl⟩
    rw [length_toList_toUTF8] at hlt ⊢
    exact ⟨hlt, by rw [textBytes, List.append_assoc]⟩
  · rintro ⟨hlt, rfl⟩
    exact ⟨_, s.toUTF8.toList ++ rest, hlt, by rw [textBytes, List.append_assoc],
      _, rest, length_toList_toUTF8 s, rfl, s, rfl, rfl, rfl⟩

variable {item : ByteReader α} {write : α → List UInt8} {kind : α → Prop}

theorem undoes_replicate (h : item.Undoes write kind) (n : Nat) : (replicate item n).Undoes
    (fun as => as.flatMap write) fun as => as.length = n ∧ ∀ a ∈ as, kind a := by
  induction n with
  | zero =>
    intro input as rest
    simp only [replicate, Option.some.injEq, Prod.mk.injEq]
    constructor
    · rintro ⟨rfl, rfl⟩
      exact ⟨⟨rfl, nofun⟩, rfl⟩
    · rintro ⟨⟨hlength, -⟩, rfl⟩
      obtain rfl := List.length_eq_zero_iff.mp hlength
      exact ⟨rfl, rfl⟩
  | succ n ih =>
    intro input as rest
    simp only [replicate, h.bind_eq_some_iff, ih.bind_eq_some_iff, Option.some.injEq,
      Prod.mk.injEq]
    constructor
    · rintro ⟨a, _, ha, rfl, as, rest', ⟨rfl, has⟩, rfl, rfl, rfl⟩
      exact ⟨⟨List.length_cons, List.forall_mem_cons.mpr ⟨ha, has⟩⟩,
        by rw [List.flatMap_cons, List.append_assoc]⟩
    · rintro ⟨⟨hlength, hall⟩, rfl⟩
      obtain ⟨a, as, rfl⟩ := List.exists_cons_of_length_eq_add_one hlength
      obtain ⟨ha, has⟩ := List.forall_mem_cons.mp hall
      exact ⟨a, as.flatMap write ++ rest, ha, by rw [List.flatMap_cons, List.append_assoc],
        as, rest, ⟨Nat.succ.inj hlength, has⟩, rfl, rfl, rfl⟩

/-- **Lists.** -/
theorem undoes_list (h : item.Undoes write kind) :
    (list item).Undoes (fun as => wordBytes as.length ++ as.flatMap write) fun as =>
      as.length < 2 ^ 64 ∧ ∀ a ∈ as, kind a := by
  intro input as rest
  simp only [list, undoes_word.bind_eq_some_iff, undoes_replicate h _ _ _ _]
  constructor
  · rintro ⟨n, _, hlt, rfl, ⟨rfl, hall⟩, rfl⟩
    exact ⟨⟨hlt, hall⟩, by rw [List.append_assoc]⟩
  · rintro ⟨⟨hlt, hall⟩, rfl⟩
    exact ⟨_, _, hlt, by rw [List.append_assoc], ⟨rfl, hall⟩, rfl⟩

end ByteReader

end GraphGrammar
