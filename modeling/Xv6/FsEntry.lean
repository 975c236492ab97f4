import Xv6.LibForest
import Xv6.FsKeep
/-!
# FsEntry — the entries of a directory as a list

The bytes of a directory are records of sixteen bytes (`entries`). Writing one of them replaces it, or adds it at the end
(`entries_patch`). A directory that is well formed (`Shape`) starts with `.` and `..`, which no later entry is called; then
`dirlink` adds one to what the directory names (`Shape.add`), and clearing an entry takes one away (`Shape.clear`).
-/
namespace Xv6.Fs

open List
variable {bytes src name a b c : Bytes} {i k : Nat} {de : Dirent} {off j m dp : Nat}

/-! ## Records -/

def entries (bytes : Bytes) : List Dirent :=
  (List.range (bytes.length / 16)).map (fun k => parseDirent ((bytes.drop (16 * k)).take 16))

theorem length_entries (bytes : Bytes) : (entries bytes).length = bytes.length / 16 := by
  unfold entries
  rw [length_map, length_range]

theorem getElem?_entries (bytes : Bytes) (k : Nat) : (entries bytes)[k]? = entryAt bytes (16 * k) := by
  unfold entries entryAt
  by_cases h : 16 * k + 16 ≤ bytes.length
  · rw [if_pos h, getElem?_map, getElem?_range (by omega)]
    rfl
  · rw [if_neg h]
    apply getElem?_eq_none
    rw [length_map, length_range]
    omega

theorem entries_append (ha : a.length = 16 * m) (b : Bytes) : entries (a ++ b) = entries a ++ entries b := by
  have hlen : (a ++ b).length / 16 = m + b.length / 16 := by
    rw [length_append, ha]
    omega
  have hm : a.length / 16 = m := by omega
  unfold entries
  rw [hlen, hm, range_add, map_append, map_map]
  congr 1
  · apply map_congr_left
    intro k hk
    have hk' := mem_range.1 hk
    rw [drop_append_of_le_length (by omega), take_append_of_le_length (by rw [length_drop]; omega)]
  · apply map_congr_left
    intro k _
    have hdrop : (a ++ b).drop (16 * (m + k)) = b.drop (16 * k) := by
      rw [show 16 * (m + k) = a.length + 16 * k by omega, drop_length_add_append]
    rw [Function.comp_apply, hdrop]

theorem entries_one (h : src.length = 16) : entries src = [parseDirent src] := by
  unfold entries
  rw [h, range_one, map_singleton, Nat.mul_zero, drop_zero, take_of_length_le (by omega)]

section
variable (h : 16 * k ≤ bytes.length)
include h

theorem entries_split :
    entries bytes = entries (bytes.take (16 * k)) ++ entries (bytes.drop (16 * k)) ∧
    (entries (bytes.take (16 * k))).length = k := by
  have hlen : (bytes.take (16 * k)).length = 16 * k := by
    rw [length_take]
    omega
  constructor
  · rw [← entries_append hlen, take_append_drop]
  · rw [length_entries, hlen]
    omega

theorem entries_take : entries (bytes.take (16 * k)) = (entries bytes).take k := by
  obtain ⟨hsplit, hlen⟩ := entries_split h
  rw [hsplit, take_left' hlen]

theorem entries_drop : entries (bytes.drop (16 * k)) = (entries bytes).drop k := by
  obtain ⟨hsplit, hlen⟩ := entries_split h
  rw [hsplit, drop_left' hlen]

end

theorem entries_patch (hw : bytes.length % 16 = 0) (hk : 16 * k ≤ bytes.length) (hs : src.length = 16) :
    entries (patch bytes (16 * k) src) = (entries bytes).take k ++ parseDirent src :: (entries bytes).drop (k + 1) := by
  have hlen : (bytes.take (16 * k)).length = 16 * k := by
    rw [length_take]
    omega
  have hdrop : entries (bytes.drop (16 * k + 16)) = (entries bytes).drop (k + 1) := by
    by_cases hend : 16 * (k + 1) ≤ bytes.length
    · rw [show 16 * k + 16 = 16 * (k + 1) by omega, entries_drop hend]
    · rw [drop_of_length_le (by omega), drop_of_length_le (by rw [length_entries]; omega)]
      rfl
  unfold patch
  rw [entries_append hlen, entries_append (m := 1) hs, entries_one hs, entries_take hk, hs, hdrop]
  rfl

/-! ## What a search has seen -/

theorem scan_last {α : Type} {e : Panic} {f : Nat → Dirent → Option α} {last : α} (hf : ∀ off de, f off de ≠ some last) :
    ∀ {offs : List Nat}, scan e bytes f last offs = .ok last → ∀ off ∈ offs, ∀ de, entryAt bytes off = some de →
    f off de = none
  | [], _, off, hoff, _, _ => by cases hoff
  | o :: rest, h, off, hoff, de, hde => by
    unfold scan at h
    cases ho : entryAt bytes o with
    | none =>
      rw [ho] at h
      cases h
    | some d =>
      rw [ho] at h
      dsimp only at h
      cases hd : f o d with
      | some r =>
        rw [hd] at h
        cases h
        exact absurd hd (hf o d)
      | none =>
        rw [hd] at h
        rcases mem_cons.1 hoff with rfl | hoff
        · rw [ho] at hde
          cases hde
          exact hd
        · exact scan_last hf h off hoff de hde

theorem mem_offsets {start : Nat} (hs : start ≤ k) (h : (entries bytes)[k]? = some de) :
    16 * k ∈ offsets start bytes.length := by
  have hlt := (List.getElem?_eq_some_iff.1 h).1
  rw [length_entries] at hlt
  exact List.mem_map.2 ⟨k, List.mem_range'_1.2 ⟨hs, by omega⟩, rfl⟩

theorem dirFind_none (h : dirFind bytes name = .ok none) (hk : (entries bytes)[k]? = some de) (h0 : de.inum ≠ 0) :
    namecmp name de.name = false := by
  have hf : ∀ off de, named name off de ≠ some none := fun off de he => by
    unfold named at he
    split at he
    · cases he
    · cases he
  have hn := scan_last hf h (16 * k) (mem_offsets (Nat.zero_le k) hk) de (by rw [← getElem?_entries, hk])
  unfold named at hn
  split at hn
  · cases hn
  · rename_i hc
    rw [Bool.eq_false_iff]
    exact fun hcmp => hc ⟨h0, hcmp⟩

theorem dirEmpty_true (h : dirEmpty bytes = .ok true) (hk : (entries bytes)[k]? = some de) (h2 : 2 ≤ k) : de.inum = 0 := by
  have hf : ∀ (off : Nat) (de : Dirent), (if de.inum ≠ 0 then some false else none) ≠ some true := fun off de he => by
    split at he
    · cases he
    · cases he
  have hn := scan_last hf h (16 * k) (mem_offsets h2 hk) de (by rw [← getElem?_entries, hk])
  split at hn
  · cases hn
  · rename_i h0
    exact not_not.1 h0

theorem dirHole_entry (hw : bytes.length % 16 = 0) (h : dirHole bytes = .ok off) :
    ∃ k, off = 16 * k ∧ 16 * k ≤ bytes.length ∧ ∀ de, (entries bytes)[k]? = some de → de.inum = 0 := by
  rcases scan_ok h with rfl | ⟨o, ho, de, hde, hf⟩
  · refine ⟨(bytes.length + 15) / 16, rfl, by omega, fun de hde => ?_⟩
    have := (List.getElem?_eq_some_iff.1 hde).1
    rw [length_entries] at this
    omega
  have hlt := offsets_lt ho
  obtain ⟨k, rfl⟩ : ∃ k, o = 16 * k := ⟨o / 16, by have := offsets_mod ho; omega⟩
  split at hf
  · rename_i h0
    cases hf
    refine ⟨k, rfl, by omega, fun de' hde' => ?_⟩
    rw [getElem?_entries, hde] at hde'
    cases hde'
    exact h0
  · cases hf

theorem dirFind_some (h : dirFind bytes name = .ok (some (i, off))) :
    ∃ k de, off = 16 * k ∧ 16 * k ≤ bytes.length ∧ (entries bytes)[k]? = some de ∧ de.inum = i ∧ de.inum ≠ 0 ∧
      namecmp name de.name = true := by
  obtain ⟨hmod, de, hde, hi, h0, hcmp⟩ := dirFind_entry h
  obtain ⟨k, rfl⟩ : ∃ k, off = 16 * k := ⟨off / 16, by omega⟩
  rw [← getElem?_entries] at hde
  have := (List.getElem?_eq_some_iff.1 hde).1
  rw [length_entries] at this
  exact ⟨k, de, rfl, by omega, hde, hi, h0, hcmp⟩

/-! ## What is stored -/

theorem parse_inum (hi : i < 65536) (name : Bytes) : (parseDirent (direntBytes ⟨i, name⟩)).inum = i := by
  have := @parseDirent_direntBytes_inum ⟨i, name⟩ hi []
  rwa [append_nil] at this

theorem length_cname (name : Bytes) : (cname name).length ≤ dirsiz := by
  exact le_trans (List.takeWhile_prefix _).length_le (by rw [length_take]; omega)

theorem cname_all (name : Bytes) : ∀ c ∈ cname name, decide (c ≠ 0) = true := by
  intro c hc
  have := mem_takeWhile_imp hc
  exact this

theorem cname_stored (i : Nat) (name : Bytes) : cname (parseDirent (direntBytes ⟨i, name⟩)).name = cname name := by
  have hlen := length_cname name
  have hdrop : (parseDirent (direntBytes ⟨i, name⟩)).name = cname name ++ replicate (dirsiz - (cname name).length) 0 := by
    unfold parseDirent direntBytes
    dsimp only
    rw [cons_append, cons_append, nil_append, drop_succ_cons, drop_succ_cons, drop_zero,
      take_take, min_self, take_append, take_of_length_le hlen, take_replicate]
    congr 2
    omega
  have htake : (cname name ++ replicate (dirsiz - (cname name).length) (0 : UInt8)).take dirsiz =
      cname name ++ replicate (dirsiz - (cname name).length) 0 := by
    apply take_of_length_le
    rw [length_append, length_replicate]
    omega
  rw [hdrop, cname, htake, takeWhile_append_of_pos (cname_all name), takeWhile_replicate]
  simp

theorem namecmp_stored (a : Bytes) (i : Nat) (name : Bytes) :
    namecmp a (parseDirent (direntBytes ⟨i, name⟩)).name = namecmp a name := by
  unfold namecmp
  rw [cname_stored]

theorem namecmp_trans (h : namecmp a b = true) (h' : namecmp c b = true) : namecmp a c = true := by
  unfold namecmp at *
  rw [decide_eq_true_eq] at *
  rw [h, h']

theorem namecmp_symm (h : namecmp a b = true) : namecmp b a = true := by
  unfold namecmp at *
  rw [decide_eq_true_eq] at *
  exact h.symm

/-! ## Directories -/

def upOf (bytes : Bytes) : Nat := ((entries bytes)[1]?.map Dirent.inum).getD 0

def entryInums (es : List Dirent) : Multiset Nat := ((es.map Dirent.inum).filter (fun i => i ≠ 0) : List Nat)

def namesOf (bytes : Bytes) : Multiset Nat := entryInums ((entries bytes).drop 2)

/-- **The directory `i` is well formed**: it starts with `.` and `..`, and no other entry is called so. -/
structure Shape (i : Nat) (bytes : Bytes) : Prop where
  whole : bytes.length % 16 = 0
  dot : ∃ de, (entries bytes)[0]? = some de ∧ de.inum = i ∧ namecmp dot de.name = true
  dotdot : ∃ de, (entries bytes)[1]? = some de ∧ de.inum ≠ 0 ∧ namecmp dotdot de.name = true
  rest : ∀ k de, 2 ≤ k → (entries bytes)[k]? = some de → de.inum ≠ 0 →
    namecmp Fs.dot de.name = false ∧ namecmp Fs.dotdot de.name = false

theorem entryInums_append (es es' : List Dirent) : entryInums (es ++ es') = entryInums es + entryInums es' := by
  unfold entryInums
  rw [map_append, filter_append, Multiset.coe_add]

theorem entryInums_empty (h : de.inum = 0) : entryInums [de] = 0 := by
  unfold entryInums
  rw [map_singleton, filter_singleton, decide_eq_false (not_not.2 h)]
  rfl

theorem entryInums_one (h : de.inum ≠ 0) : entryInums [de] = {de.inum} := by
  unfold entryInums
  rw [map_singleton, filter_singleton, decide_eq_true h]
  rfl

theorem mem_entryInums {es : List Dirent} : j ∈ entryInums es ↔ j ≠ 0 ∧ ∃ de ∈ es, de.inum = j := by
  unfold entryInums
  rw [Multiset.mem_coe, mem_filter, mem_map, decide_eq_true_eq, and_comm]

theorem mem_namesOf : j ∈ namesOf bytes ↔ j ≠ 0 ∧ ∃ k de, 2 ≤ k ∧ (entries bytes)[k]? = some de ∧ de.inum = j := by
  unfold namesOf
  rw [mem_entryInums]
  refine and_congr_right (fun _ => ⟨?_, ?_⟩)
  · rintro ⟨de, hm, hj⟩
    obtain ⟨m, hm⟩ := mem_iff_getElem?.1 hm
    rw [getElem?_drop] at hm
    exact ⟨2 + m, de, by omega, hm, hj⟩
  · rintro ⟨k, de, h2, hk, hj⟩
    refine ⟨de, mem_iff_getElem?.2 ⟨k - 2, ?_⟩, hj⟩
    rw [getElem?_drop, show 2 + (k - 2) = k by omega, hk]

theorem getElem?_patch (hw : bytes.length % 16 = 0) (hk : 16 * k ≤ bytes.length) (hs : src.length = 16) (m : Nat) :
    (entries (patch bytes (16 * k) src))[m]? = if m = k then some (parseDirent src) else (entries bytes)[m]? := by
  have hlen : ((entries bytes).take k).length = k := by
    rw [length_take, length_entries]
    omega
  rw [entries_patch hw hk hs]
  by_cases hlt : m < k
  · rw [getElem?_append_left (by omega), getElem?_take_of_lt hlt, if_neg (by omega)]
  rw [getElem?_append_right (by omega), hlen]
  by_cases e : m = k
  · rw [if_pos e, e, Nat.sub_self]
    rfl
  · obtain ⟨j, rfl⟩ : ∃ j, m = k + 1 + j := ⟨m - (k + 1), by omega⟩
    rw [if_neg e, show k + 1 + j - k = j + 1 by omega, getElem?_cons_succ, getElem?_drop]

theorem namesOf_split (hk : 2 ≤ k) (hle : 16 * k ≤ bytes.length) :
    namesOf bytes = entryInums (((entries bytes).take k).drop 2) + entryInums (entries bytes)[k]?.toList +
      entryInums ((entries bytes).drop (k + 1)) := by
  have hlen : ((entries bytes).take k).length = k := by
    rw [List.length_take, length_entries]
    omega
  have htail : (entries bytes).drop k = (entries bytes)[k]?.toList ++ (entries bytes).drop (k + 1) := by
    cases he : (entries bytes)[k]? with
    | none =>
      have := List.getElem?_eq_none_iff.1 he
      rw [List.drop_of_length_le this, List.drop_of_length_le (by omega)]
      rfl
    | some de =>
      obtain ⟨hlt, hde⟩ := List.getElem?_eq_some_iff.1 he
      rw [List.drop_eq_getElem_cons hlt, hde]
      rfl
  unfold namesOf
  conv_lhs => rw [← List.take_append_drop k (entries bytes), List.drop_append_of_le_length (by omega), htail]
  rw [entryInums_append, entryInums_append, add_assoc]

theorem namesOf_patch (hw : bytes.length % 16 = 0) (hk : 2 ≤ k) (hle : 16 * k ≤ bytes.length) (hs : src.length = 16) :
    namesOf (patch bytes (16 * k) src) + entryInums (entries bytes)[k]?.toList =
    namesOf bytes + entryInums [parseDirent src] := by
  have hlen : ((entries bytes).take k).length = k := by
    rw [length_take, length_entries]
    omega
  have hnew : namesOf (patch bytes (16 * k) src) =
      entryInums (((entries bytes).take k).drop 2) + entryInums [parseDirent src] +
      entryInums ((entries bytes).drop (k + 1)) := by
    unfold namesOf
    rw [entries_patch hw hle hs, drop_append_of_le_length (by omega), ← singleton_append, entryInums_append, entryInums_append,
      add_assoc]
  rw [hnew, namesOf_split hk hle]
  generalize entryInums (((entries bytes).take k).drop 2) = a
  generalize entryInums ((entries bytes).drop (k + 1)) = b
  rw [add_right_comm a _ b, add_right_comm a _ b, add_right_comm (a + b)]

section
variable (h : Shape i bytes)
include h

theorem Shape.patch (hk : 2 ≤ k) (hle : 16 * k ≤ bytes.length) (hs : src.length = 16)
    (hname : (parseDirent src).inum ≠ 0 →
      namecmp Fs.dot (parseDirent src).name = false ∧ namecmp Fs.dotdot (parseDirent src).name = false) :
    Shape i (patch bytes (16 * k) src) ∧ upOf (patch bytes (16 * k) src) = upOf bytes := by
  have hget := getElem?_patch h.whole hle hs
  have hw := h.whole
  refine ⟨⟨?_, ?_, ?_, ?_⟩, ?_⟩
  · rw [length_patch hle, hs]
    omega
  · rw [hget, if_neg (by omega)]
    exact h.dot
  · rw [hget, if_neg (by omega)]
    exact h.dotdot
  · intro m de hm hde h0
    rw [hget] at hde
    split at hde
    · cases hde
      exact hname h0
    · exact h.rest m de hm hde h0
  · unfold upOf
    rw [hget, if_neg (by omega)]

theorem Shape.two_le (hi : i ≠ 0) (hk : ∀ de, (entries bytes)[k]? = some de → de.inum = 0) : 2 ≤ k := by
  obtain ⟨d0, h0, hd0, -⟩ := h.dot
  obtain ⟨d1, h1, hd1, -⟩ := h.dotdot
  by_contra hlt
  have : k = 0 ∨ k = 1 := by omega
  rcases this with rfl | rfl
  · exact hi (hd0.symm.trans (hk d0 h0))
  · exact hd1 (hk d1 h1)

theorem Shape.add (hi : i ≠ 0) (hj : 0 < j) (hj' : j < 65536)
    (hfind : dirFind bytes name = .ok none) (hhole : dirHole bytes = .ok off) :
    Shape i (Fs.patch bytes off (direntBytes ⟨j, name⟩)) ∧ upOf (Fs.patch bytes off (direntBytes ⟨j, name⟩)) = upOf bytes ∧
      namesOf (Fs.patch bytes off (direntBytes ⟨j, name⟩)) = j ::ₘ namesOf bytes := by
  obtain ⟨k, rfl, hle, hempty⟩ := dirHole_entry h.whole hhole
  have hk := h.two_le hi hempty
  have hlen := length_direntBytes ⟨j, name⟩
  have hinum := parse_inum hj' name
  -- `.` and `..` have been compared with the name
  have hname : namecmp Fs.dot name = false ∧ namecmp Fs.dotdot name = false := by
    obtain ⟨d0, h0, hd0, hc0⟩ := h.dot
    obtain ⟨d1, h1, hd1, hc1⟩ := h.dotdot
    have hn0 := dirFind_none hfind h0 (by omega)
    have hn1 := dirFind_none hfind h1 hd1
    constructor
    · rw [Bool.eq_false_iff] at hn0 ⊢
      exact fun hc => hn0 (namecmp_trans (namecmp_symm hc) (namecmp_symm hc0))
    · rw [Bool.eq_false_iff] at hn1 ⊢
      exact fun hc => hn1 (namecmp_trans (namecmp_symm hc) (namecmp_symm hc1))
  obtain ⟨hshape, hup⟩ := h.patch hk hle hlen (fun _ => by rw [namecmp_stored, namecmp_stored]; exact hname)
  refine ⟨hshape, hup, ?_⟩
  have hnames := namesOf_patch h.whole hk hle hlen
  have hold : entryInums (entries bytes)[k]?.toList = 0 := by
    cases he : (entries bytes)[k]? with
    | none => rfl
    | some de => exact entryInums_empty (hempty de he)
  rw [hold, add_zero, entryInums_one (by omega), hinum] at hnames
  rw [hnames, add_comm, Multiset.singleton_add]

theorem Shape.clear (hdot : namecmp name Fs.dot = false) (hdotdot : namecmp name Fs.dotdot = false)
    (hfind : dirFind bytes name = .ok (some (j, off))) :
    Shape i (Fs.patch bytes off (List.replicate 16 0)) ∧ upOf (Fs.patch bytes off (List.replicate 16 0)) = upOf bytes ∧
      namesOf bytes = j ::ₘ namesOf (Fs.patch bytes off (List.replicate 16 0)) := by
  obtain ⟨k, de, rfl, hle, hde, rfl, h0, hcmp⟩ := dirFind_some hfind
  have hk : 2 ≤ k := by
    obtain ⟨d0, hd0, -, hc0⟩ := h.dot
    obtain ⟨d1, hd1, -, hc1⟩ := h.dotdot
    by_contra hlt
    have : k = 0 ∨ k = 1 := by omega
    rcases this with rfl | rfl
    · rw [hd0] at hde
      cases hde
      exact Bool.eq_false_iff.1 hdot (namecmp_trans hcmp hc0)
    · rw [hd1] at hde
      cases hde
      exact Bool.eq_false_iff.1 hdotdot (namecmp_trans hcmp hc1)
  have hlen : (replicate 16 (0 : UInt8)).length = 16 := length_replicate
  have hzero : (parseDirent (replicate 16 0)).inum = 0 := rfl
  obtain ⟨hshape, hup⟩ := h.patch hk hle hlen (fun hne => absurd hzero hne)
  refine ⟨hshape, hup, ?_⟩
  have hnames := namesOf_patch h.whole hk hle hlen
  rw [hde, Option.toList_some, entryInums_one h0, entryInums_empty hzero, add_zero, add_comm, Multiset.singleton_add] at hnames
  exact hnames.symm

end

theorem entries_dots (i dp : Nat) :
    entries (dots i dp) = [parseDirent (direntBytes ⟨i, dot⟩), parseDirent (direntBytes ⟨dp, dotdot⟩)] := by
  unfold dots
  rw [entries_append (m := 1) (length_direntBytes _), entries_one (length_direntBytes _), entries_one (length_direntBytes _)]
  rfl

theorem shape_dots (hi : i < 65536) (hdp : 0 < dp) (hdp' : dp < 65536) :
    Shape i (dots i dp) ∧ upOf (dots i dp) = dp ∧ namesOf (dots i dp) = 0 := by
  have hes := entries_dots i dp
  refine ⟨⟨?_, ?_, ?_, ?_⟩, ?_, ?_⟩
  · unfold dots
    rw [length_append, length_direntBytes, length_direntBytes]
  · rw [hes]
    exact ⟨_, rfl, parse_inum hi _, by rw [namecmp_stored]; decide⟩
  · rw [hes]
    refine ⟨_, rfl, ?_, by rw [namecmp_stored]; decide⟩
    rw [parse_inum hdp']
    omega
  · intro k de hk hde
    rw [hes] at hde
    have := (List.getElem?_eq_some_iff.1 hde).1
    rw [length_cons, length_singleton] at this
    omega
  · unfold upOf
    rw [hes]
    exact parse_inum hdp' _
  · unfold namesOf
    rw [hes]
    rfl

end Xv6.Fs
