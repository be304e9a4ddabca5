import Xv6.Fs.Inodes
import Xv6.Fs.Text
import Mathlib.Tactic

/-! The bytes of a directory as entries. -/
namespace Xv6.Fs
open Lib Lib.Bytes List

def Matches (name : List Byte) (de : Dirent) : Prop := de.inum ≠ 0 ∧ namecmp name de.name = 0

theorem length_flatMap_bytes (entries : List Dirent) : (entries.flatMap Dirent.bytes).length = direntSize * entries.length := by
  induction entries with
  | nil => rfl
  | cons de entries ih =>
    rw [flatMap_cons,length_append,ih,Dirent.length_bytes,length_cons,Nat.mul_add]
    omega

theorem entry_bytes {entries : List Dirent} {j : Nat} {de : Dirent} (here : entries[j]? = some de) {k : Nat}
    (small : k < direntSize) : (entries.flatMap Dirent.bytes).getD (direntSize * j + k) 0 = de.toBytes k := by
  induction entries generalizing j with
  | nil => simp at here
  | cons first rest ih =>
    have length := Dirent.length_bytes first
    rw [flatMap_cons,getD_eq_getElem?_getD]
    cases j with
    | zero =>
      rw [getElem?_cons_zero] at here
      rw [getElem?_append_left (by omega),Option.some.inj here,Nat.mul_zero,Nat.zero_add]
      simp [Dirent.bytes,small]
    | succ j =>
      rw [getElem?_append_right (by rw [length,Nat.mul_succ]; omega),← getD_eq_getElem?_getD]
      have place : direntSize * (j + 1) + k - first.bytes.length = direntSize * j + k := by
        rw [length,Nat.mul_succ]
        omega
      rw [place]
      exact ih here

namespace Node
variable {node other : Node} {attr : Attr} {entries : List Dirent} {k off : Nat} {de : Dirent} {bytes : List Byte}

theorem length_entries (node : Node) : node.entries.length = node.size / direntSize := by
  simp [Node.entries,size]

theorem size_eq (node : Node) : node.size = direntSize * node.entries.length + node.rest := by
  rw [length_entries]
  exact (Nat.div_add_mod ..).symm

theorem getElem?_entries (node : Node) (k : Nat) : node.entries[k]? =
    if direntSize * k + direntSize ≤ node.size then some (.ofBytes fun j => node.content.getD (direntSize * k + j) 0) else none := by
  unfold Node.entries
  rw [getElem?_map]
  have bound : k < node.content.length / direntSize ↔ direntSize * k + direntSize ≤ node.size := by
    unfold direntSize size
    omega
  split_ifs with inside
  · rw [getElem?_range (bound.mpr inside)]
    rfl
  · rw [getElem?_eq_none (by rw [length_range]; exact Nat.le_of_not_lt fun low => inside (bound.mp low))]
    rfl

/-! Writing. -/

@[simp] theorem attr_write (node : Node) (off : Nat) (bytes : List Byte) : (node.write off bytes).attr = node.attr := by
  unfold write
  split_ifs <;> rfl

theorem content_write (node : Node) (fits : off + bytes.length ≤ maxBytes) :
    (node.write off bytes).content = overwrite node.content off bytes := by
  rw [write,dif_pos fits]

theorem content_smudge (node : Node) (off : Nat) (bytes : List Byte) :
    (node.smudge off bytes).content = (overwrite node.content off bytes).take node.content.length := rfl

theorem content_put (node : Node) (de : Dirent) (fits : direntSize * k + direntSize ≤ maxBytes) :
    (node.put k de).content = overwrite node.content (direntSize * k) de.bytes :=
  node.content_write (by rw [Dirent.length_bytes]; exact fits)

theorem size_put (de : Dirent) (fits : direntSize * k + direntSize ≤ maxBytes) (inside : k ≤ node.entries.length) :
    (node.put k de).size = max node.size (direntSize * k + direntSize) := by
  have place : direntSize * k ≤ node.content.length := by
    have split := node.size_eq
    have low := Nat.mul_le_mul_left direntSize inside
    unfold size at split
    omega
  rw [size,node.content_put de fits,length_overwrite place,Dirent.length_bytes]
  rfl

theorem getElem?_entries_put (fits : direntSize * k + direntSize ≤ maxBytes) (inside : k ≤ node.entries.length)
    (whole : de.name.length = dirsiz) (j : Nat) :
    (node.put k de).entries[j]? = if j = k then some de else node.entries[j]? := by
  have place : direntSize * k ≤ node.content.length := by
    have split := node.size_eq
    have low := Nat.mul_le_mul_left direntSize inside
    unfold size at split
    omega
  have next : direntSize * k + direntSize = direntSize * (k + 1) := rfl
  rw [getElem?_entries,node.getElem?_entries,size_put de fits inside,node.content_put de fits]
  simp only [getD_eq_getElem?_getD,getElem?_overwrite place,Dirent.length_bytes]
  by_cases same : j = k
  · subst same
    rw [if_pos (Nat.le_max_right ..),if_pos rfl]
    conv_rhs => rw [← Dirent.ofBytes_toBytes de whole]
    refine congrArg some (Dirent.ofBytes_congr fun i small => ?_)
    rw [if_pos (by omega),Nat.add_sub_cancel_left]
    simp [Dirent.bytes,small]
  · rw [if_neg same]
    have apart : direntSize * j + direntSize ≤ direntSize * k ∨ direntSize * k + direntSize ≤ direntSize * j := by
      unfold direntSize
      omega
    have short : direntSize * j + direntSize ≤ max node.size (direntSize * k + direntSize) ↔
        direntSize * j + direntSize ≤ node.size := by
      have size : direntSize * k ≤ node.size := place
      unfold direntSize at *
      omega
    simp only [short]
    refine if_congr Iff.rfl (congrArg some (Dirent.ofBytes_congr fun i small => ?_)) rfl
    rw [if_neg (by omega)]

theorem entries_put (fits : direntSize * k + direntSize ≤ maxBytes) (inside : k ≤ node.entries.length)
    (whole : de.name.length = dirsiz) :
    (node.put k de).entries = if k < node.entries.length then node.entries.set k de else node.entries ++ [de] := by
  refine ext_getElem? fun j => ?_
  rw [getElem?_entries_put fits inside whole]
  split_ifs with same old
  · subst same
    rw [getElem?_set_self old]
  · rw [same,getElem?_append_right (by omega)]
    simp [show k - node.entries.length = 0 by omega]
  · rw [getElem?_set_ne (Ne.symm same)]
  · by_cases before : j < node.entries.length
    · rw [getElem?_append_left before]
    · rw [getElem?_eq_none (by omega),getElem?_eq_none]
      rw [length_append,length_singleton]
      omega

theorem rest_put (de : Dirent) (fits : direntSize * k + direntSize ≤ maxBytes) (inside : k ≤ node.entries.length)
    (even : node.rest = 0) : (node.put k de).rest = 0 := by
  have size := size_put de fits inside
  have split : node.size % direntSize = 0 := even
  change (node.put k de).size % direntSize = 0
  rw [size]
  unfold direntSize at *
  omega

/-! Directories made of entries. -/

end Node
end Xv6.Fs
