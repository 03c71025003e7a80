import DataBinding.Json
import DataBinding.Proofs.DeepEquality

/-!
# Sorted members

The members of a document are sorted by name.  Members whose names are all different are sorted to
the same members in another order (`Json.sortMembers_perm`), and sorted members stay as they are
(`Json.sortMembers_eq_self`).  A record that is written from members keeps them in their order
(`Record.entries_ofList`), and has no name twice in any case (`Record.nodup_keys_ofList`).
-/

namespace DataBinding

/-! ## Sorting -/

namespace Json

variable {α : Type} {key : String} {x : α} {members : List (String × α)}

/-- The names come in order, each once. -/
def Sorted (members : List (String × α)) : Prop := members.Pairwise fun m m' => m.1 < m'.1

lemma Sorted.nodup (h : Sorted members) : (members.map Prod.fst).Nodup := by
  rw [List.Nodup, List.pairwise_map]
  exact h.imp ne_of_lt

lemma mem_insertMember {m : String × α} (hm : m ∈ insertMember key x members) :
    m = (key, x) ∨ m ∈ members := by
  induction members with
  | nil => exact .inl (List.mem_singleton.1 hm)
  | cons m' rest ih =>
    rw [insertMember] at hm
    split_ifs at hm
    · exact List.mem_cons.1 hm
    · exact (List.mem_cons.1 hm).imp_right (.tail _)
    · rcases List.mem_cons.1 hm with rfl | hm
      · exact .inr (.head _)
      · exact (ih hm).imp_right (.tail _)

lemma Sorted.insertMember (h : Sorted members) (key : String) (x : α) :
    Sorted (insertMember key x members) := by
  induction members with
  | nil => exact List.pairwise_singleton _ _
  | cons m rest ih =>
    obtain ⟨hfirst, hrest⟩ := List.pairwise_cons.1 h
    rw [Json.insertMember]
    split_ifs with hlt heq
    · refine List.pairwise_cons.2 ⟨fun m' hm' => ?_, h⟩
      rcases List.mem_cons.1 hm' with rfl | hm'
      · exact hlt
      · exact hlt.trans (hfirst m' hm')
    · exact List.pairwise_cons.2 ⟨fun m' hm' => heq ▸ hfirst m' hm', hrest⟩
    · refine List.pairwise_cons.2 ⟨fun m' hm' => ?_, ih hrest⟩
      rcases mem_insertMember hm' with rfl | hm'
      · exact lt_of_le_of_ne (not_lt.1 hlt) heq
      · exact hfirst m' hm'

lemma insertMember_perm (hkey : key ∉ members.map Prod.fst) (x : α) :
    (insertMember key x members).Perm ((key, x) :: members) := by
  induction members with
  | nil => exact .refl _
  | cons m rest ih =>
    rw [List.map_cons, List.mem_cons, not_or] at hkey
    rw [insertMember, if_neg (Ne.symm hkey.1)]
    split_ifs
    · exact .refl _
    · exact ((ih hkey.2).cons m).trans (.swap _ _ _)

lemma sorted_sortMembers (members : List (String × α)) : Sorted (sortMembers members) :=
  List.foldlRecOn members _ List.Pairwise.nil fun _ h m _ => h.insertMember m.1 m.2

lemma foldl_insertMember_perm (sorted : List (String × α))
    (hnodup : ((sorted ++ members).map Prod.fst).Nodup) :
    (members.foldl (fun sorted m => insertMember m.1 m.2 sorted) sorted).Perm
      (sorted ++ members) := by
  induction members generalizing sorted with
  | nil => rw [List.append_nil, List.foldl_nil]
  | cons m rest ih =>
    have hmiddle : (sorted ++ m :: rest).Perm (m :: sorted ++ rest) := List.perm_middle
    have hnodup' := (hmiddle.map Prod.fst).nodup_iff.1 hnodup
    have hkey : m.1 ∉ sorted.map Prod.fst := fun hmem =>
      (List.nodup_cons.1 hnodup').1 (List.map_append ▸ List.mem_append_left _ hmem)
    have hinsert := (insertMember_perm hkey m.2).append_right rest
    exact (ih _ ((hinsert.map Prod.fst).nodup_iff.2 hnodup')).trans (hinsert.trans hmiddle.symm)

/-- Of members with different names none is lost. -/
lemma sortMembers_perm (hnodup : (members.map Prod.fst).Nodup) :
    (sortMembers members).Perm members :=
  foldl_insertMember_perm [] hnodup

lemma sortMembers_eq_self (h : Sorted members) : sortMembers members = members :=
  (sortMembers_perm h.nodup).eq_of_pairwise
    (fun _ _ _ _ hlt hgt => absurd hlt hgt.asymm) (sorted_sortMembers members) h

end Json

/-! ## Records of members -/

namespace Record

variable {entries : List (String × Value)}

lemma nodup_keys_ofList (entries : List (String × Value)) : (ofList entries).keys.Nodup :=
  List.foldlRecOn (motive := fun r : Record Value => r.keys.Nodup) entries _ List.nodup_nil
    fun _ h x _ => Heap.nodup_keys_set h x.1 x.2

lemma setEntry_eq_append {key : String} (hkey : key ∉ entries.map Prod.fst) (v : Value) :
    setEntry key v entries = entries ++ [(key, v)] := by
  induction entries with
  | nil => rfl
  | cons x rest ih =>
    rw [List.map_cons, List.mem_cons, not_or] at hkey
    rw [setEntry, if_neg (Ne.symm hkey.1), ih hkey.2, List.cons_append]

lemma foldl_set {r : Record Value} (hnodup : ((r.entries ++ entries).map Prod.fst).Nodup) :
    entries.foldl (fun r e => r.set e.1 e.2) r = ⟨r.entries ++ entries⟩ := by
  induction entries generalizing r with
  | nil => rw [List.foldl_nil, List.append_nil]
  | cons x rest ih =>
    have hkey : x.1 ∉ r.entries.map Prod.fst := fun hmem => by
      rw [List.map_append, List.nodup_append] at hnodup
      exact hnodup.2.2 x.1 hmem x.1 (.head _) rfl
    have hset : (r.set x.1 x.2).entries = r.entries ++ [x] := setEntry_eq_append hkey x.2
    rw [List.foldl_cons, ih (by rwa [hset, List.append_assoc]), hset, List.append_assoc,
      List.singleton_append]

/-- Entries with different names make the record of these entries. -/
lemma entries_ofList (hnodup : (entries.map Prod.fst).Nodup) :
    (ofList entries).entries = entries := by
  rw [ofList, foldl_set (by simpa [empty] using hnodup)]
  rfl

end Record

end DataBinding
