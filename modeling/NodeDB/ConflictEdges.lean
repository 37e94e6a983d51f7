import NodeDB.ConflictIndex

/-!
# The reorder edges of a candidate batch

A reader and a writer get an edge exactly if their keys conflict, although the
index keeps only one row key for each transaction and collection.  The
in-degrees count the edges.
-/

namespace NodeDB.Sequencer

open Std Calvin List ConflictIndex

section Pairs

variable (index : ConflictIndex) (reader writer : Nat)

theorem mem_exactPairs :
    (reader, writer) ∈ index.exactPairs ↔
      ∃ id, reader ∈ index.txnsWith .read id ∧ writer ∈ index.txnsWith .write id := by
  simp only [exactPairs, mem_flatMap, Prod.exists,
    TreeMap.mem_toList_iff_getElem?_eq_some, txnsWith, txnsOf]
  constructor
  · rintro ⟨id, readers, hreaders, hpair⟩
    refine ⟨id, ?_⟩
    cases hwriters : index.writersOf[id]? with
    | none => simp [hwriters] at hpair
    | some writers => simpa [hwriters, hreaders] using hpair
  · rintro ⟨id, hreader, hwriter⟩
    cases hreaders : index.readersOf[id]? with
    | none => simp [hreaders] at hreader
    | some readers =>
      cases hwriters : index.writersOf[id]? with
      | none => simp [hwriters] at hwriter
      | some writers =>
        refine ⟨id, readers, hreaders, ?_⟩
        simpa [hwriters, hreaders] using And.intro hreader hwriter

theorem mem_conflictingPairs (reads writes : List KeyRef) :
    (reader, writer) ∈ index.conflictingPairs reads writes ↔
      ∃ read ∈ reads, ∃ write ∈ writes, index.refsConflict read write = true ∧
        read.1 = reader ∧ write.1 = writer := by
  simp only [ConflictIndex.conflictingPairs, mem_flatMap, mem_map, mem_filter, Prod.mk.injEq]
  constructor
  · rintro ⟨read, hread, write, ⟨hwrite, hconflict⟩, hsame⟩
    exact ⟨read, hread, write, hwrite, hconflict, hsame⟩
  · rintro ⟨read, hread, write, hwrite, hconflict, hsame⟩
    exact ⟨read, hread, write, ⟨hwrite, hconflict⟩, hsame⟩

theorem mem_collectionPairs :
    (reader, writer) ∈ index.collectionPairs ↔
      ∃ coll, (reader, writer) ∈ index.conflictingPairs (index.sideOf .read coll).scopedKeys
          ((index.sideOf .write coll).scopedKeys ++ (index.sideOf .write coll).rowKeys) ∨
        (reader, writer) ∈ index.conflictingPairs (index.sideOf .read coll).rowKeys
          (index.sideOf .write coll).scopedKeys := by
  simp only [collectionPairs, mem_flatMap, Prod.exists,
    TreeMap.mem_toList_iff_getElem?_eq_some, mem_append, sideOf,
    CollectionKeys.side]
  constructor
  · rintro ⟨coll, keys, hkeys, hpair⟩
    refine ⟨coll, ?_⟩
    rw [hkeys]
    exact hpair
  · rintro ⟨coll, hpair⟩
    cases hkeys : index.byCollection[coll]? with
    | none => simp [hkeys, ConflictIndex.conflictingPairs] at hpair
    | some keys =>
      refine ⟨coll, keys, hkeys, ?_⟩
      rw [hkeys] at hpair
      exact hpair

end Pairs

/-! ## Every conflict has a pair -/

theorem conflicts_of_scope {read write : FlatKey} (hcoll : read.collection = write.collection)
    (hscopes : (read.scope = .collection ∧ write.scope = .row) ∨
      (read.scope = .row ∧ write.scope = .collection)) : read.conflicts write = true := by
  unfold FlatKey.conflicts
  obtain ⟨hread, hwrite⟩ | ⟨hread, hwrite⟩ := hscopes <;> simp [hcoll, hread, hwrite]

variable {batch : List (List FlatKey × List FlatKey)} {read write : Listing}
  {reader writer : Nat}

section

variable (hread : read ∈ batchKeys batch) (hwrite : write ∈ batchKeys batch)
  (hreadSide : read.access = .read) (hwriteSide : write.access = .write)
  (hconflict : read.key.conflicts write.key = true)
include hread hwrite hreadSide hwriteSide hconflict

theorem refsConflict_of_conflicts :
    (ConflictIndex.ofKeys batch).refsConflict read.ref write.ref = true := by
  have hreadKey := keyAt_of_mem hread
  have hwriteKey := keyAt_of_mem hwrite
  rw [hreadSide] at hreadKey
  rw [hwriteSide] at hwriteKey
  simp only [refsConflict, hreadKey, hwriteKey, hconflict]

theorem mem_pairs_of_conflicts : (read.txn, write.txn) ∈ (ConflictIndex.ofKeys batch).exactPairs ++
      (ConflictIndex.ofKeys batch).collectionPairs := by
  have hlists := lists_ofKeys batch
  rw [mem_append, mem_exactPairs, mem_collectionPairs]
  by_cases hid : read.key.keyId = write.key.keyId
  · refine .inl ⟨read.key.keyId, ?_, ?_⟩
    · rw [← hreadSide]
      exact hlists.exact read hread
    · rw [hid, ← hwriteSide]
      exact hlists.exact write hwrite
  have hcoll : read.key.collection = write.key.collection := by
    by_contra hne
    simp [FlatKey.conflicts, hne] at hconflict
  refine .inr ⟨read.key.collection, ?_⟩
  simp only [mem_conflictingPairs]
  cases hreadScope : read.key.scope with
  | collection =>
    have hreadRef := hlists.scope read hread hreadScope
    rw [hreadSide] at hreadRef
    cases hwriteScope : write.key.scope with
    | collection =>
      have hwriteRef := hlists.scope write hwrite hwriteScope
      rw [hwriteSide, ← hcoll] at hwriteRef
      exact .inl ⟨read.ref, hreadRef, write.ref, mem_append_left _ hwriteRef,
        refsConflict_of_conflicts hread hwrite hreadSide hwriteSide hconflict, rfl, rfl⟩
    | row =>
      -- the row key kept for the writer stands for this one
      obtain ⟨place, hplace⟩ := hlists.row write hwrite hwriteScope
      rw [hwriteSide, ← hcoll] at hplace
      obtain ⟨kept, hkept, hkeptSide, hkeptRef, hkeptColl, hkeptScope⟩ :=
        hlists.rowSound _ _ _ hplace
      have hkeptConflict := conflicts_of_scope hkeptColl.symm
        (.inl ⟨hreadScope, hkeptScope⟩)
      refine .inl ⟨read.ref, hreadRef, kept.ref, ?_,
        refsConflict_of_conflicts hread hkept hreadSide hkeptSide hkeptConflict, rfl, ?_⟩
      · rw [hkeptRef]
        exact mem_append_right _ hplace
      · rw [hkeptRef]
  | row =>
    cases hwriteScope : write.key.scope with
    | collection =>
      have hwriteRef := hlists.scope write hwrite hwriteScope
      rw [hwriteSide, ← hcoll] at hwriteRef
      obtain ⟨place, hplace⟩ := hlists.row read hread hreadScope
      rw [hreadSide] at hplace
      obtain ⟨kept, hkept, hkeptSide, hkeptRef, hkeptColl, hkeptScope⟩ :=
        hlists.rowSound _ _ _ hplace
      have hkeptConflict := conflicts_of_scope (hkeptColl.trans hcoll)
        (.inr ⟨hkeptScope, hwriteScope⟩)
      refine .inr ⟨kept.ref, ?_, write.ref, hwriteRef,
        refsConflict_of_conflicts hkept hwrite hkeptSide hwriteSide hkeptConflict, ?_, rfl⟩
      · rw [hkeptRef]
        exact hplace
      · rw [hkeptRef]
    | row =>
      have hdiffer : ¬ (read.key.discriminant = write.key.discriminant ∧
          read.key.keyBytes = write.key.keyBytes) := by
        rintro ⟨hdiscriminant, hbytes⟩
        apply hid
        simp [FlatKey.keyId, hdiscriminant, hcoll, hbytes]
      simp [FlatKey.conflicts, hcoll, hdiffer, hreadScope, hwriteScope] at hconflict

end

theorem txn_lt_of_mem {listing : Listing}
    (hmem : listing ∈ batchKeys batch) : listing.txn < batch.length := by
  obtain ⟨sets, hsets, -⟩ := hmem
  exact (List.getElem?_eq_some_iff.mp hsets).1

/-! ## Every pair has a conflict -/

variable (batch) in
/-- Some key that the reader reads conflicts with one that the writer writes. -/
def TxnsConflict (reader writer : Nat) : Prop :=
  ∃ read ∈ batchKeys batch, ∃ write ∈ batchKeys batch, read.access = .read ∧
    write.access = .write ∧ read.key.conflicts write.key = true ∧ read.txn = reader ∧
    write.txn = writer

theorem conflicts_of_keyId {read write : FlatKey} (hid : read.keyId = write.keyId) :
    read.conflicts write = true := by
  obtain ⟨hdiscriminant, hcoll, hbytes⟩ := KeyId.mk.inj hid
  simp [FlatKey.conflicts, hcoll, hdiscriminant, hbytes]

theorem txnsConflict_of_refs {read write : KeyRef}
    (hread : ∃ listing ∈ batchKeys batch, listing.access = .read ∧ listing.ref = read)
    (hwrite : ∃ listing ∈ batchKeys batch, listing.access = .write ∧ listing.ref = write)
    (hconflict : (ConflictIndex.ofKeys batch).refsConflict read write = true) :
    TxnsConflict batch read.1 write.1 := by
  obtain ⟨reader, hreader, hreadSide, rfl⟩ := hread
  obtain ⟨writer, hwriter, hwriteSide, rfl⟩ := hwrite
  have hreadKey := keyAt_of_mem hreader
  have hwriteKey := keyAt_of_mem hwriter
  rw [hreadSide] at hreadKey
  rw [hwriteSide] at hwriteKey
  simp only [refsConflict, hreadKey, hwriteKey] at hconflict
  exact ⟨reader, hreader, writer, hwriter, hreadSide, hwriteSide, hconflict, rfl, rfl⟩

theorem txnsConflict_of_mem_pairs
    (hmem : (reader, writer) ∈ (ConflictIndex.ofKeys batch).exactPairs ++
      (ConflictIndex.ofKeys batch).collectionPairs) : TxnsConflict batch reader writer := by
  have hlists := lists_ofKeys batch
  have hrows : ∀ access coll, ∀ ref ∈ ((ofKeys batch).sideOf access coll).rowKeys,
      ∃ listing ∈ batchKeys batch, listing.access = access ∧ listing.ref = ref := by
    intro access coll ref href
    obtain ⟨listing, hlisting, haccess, hsame, -⟩ := hlists.rowSound access coll ref href
    exact ⟨listing, hlisting, haccess, hsame⟩
  rw [mem_append, mem_exactPairs, mem_collectionPairs] at hmem
  obtain ⟨id, hreader, hwriter⟩ | ⟨coll, hpair⟩ := hmem
  · obtain ⟨read, hread, hreadSide, hreadId, rfl⟩ := hlists.exactSound _ _ _ hreader
    obtain ⟨write, hwrite, hwriteSide, hwriteId, rfl⟩ := hlists.exactSound _ _ _ hwriter
    exact ⟨read, hread, write, hwrite, hreadSide, hwriteSide,
      conflicts_of_keyId (hreadId.trans hwriteId.symm), rfl, rfl⟩
  · simp only [mem_conflictingPairs, mem_append] at hpair
    obtain ⟨read, hread, write, hwrite | hwrite, hconflict, rfl, rfl⟩ |
      ⟨read, hread, write, hwrite, hconflict, rfl, rfl⟩ := hpair
    · exact txnsConflict_of_refs (hlists.scopeSound _ _ _ hread) (hlists.scopeSound _ _ _ hwrite)
        hconflict
    · exact txnsConflict_of_refs (hlists.scopeSound _ _ _ hread) (hrows _ _ _ hwrite) hconflict
    · exact txnsConflict_of_refs (hrows _ _ _ hread) (hlists.scopeSound _ _ _ hwrite) hconflict

theorem lt_of_mem_pairs (hmem : (reader, writer) ∈ (ConflictIndex.ofKeys batch).exactPairs ++
      (ConflictIndex.ofKeys batch).collectionPairs) :
    reader < batch.length ∧ writer < batch.length := by
  obtain ⟨read, hread, write, hwrite, -, -, -, rfl, rfl⟩ := txnsConflict_of_mem_pairs hmem
  exact ⟨txn_lt_of_mem hread, txn_lt_of_mem hwrite⟩

/-! ## The edges of a list of pairs -/

/-- The edges come from the pairs of distinct transactions below `n`, and the
in-degrees count them. -/
structure EdgesOf (n : Nat) (pairs : List (Nat × Nat)) (edges : Edges) : Prop where
  mem : ∀ reader writer, writer ∈ edges.out reader ↔
    (reader, writer) ∈ pairs ∧ reader ≠ writer
  degree : ∀ writer, edges.inDegree writer =
    ((Finset.range n).filter fun reader => writer ∈ edges.out reader).card

theorem mem_out_add (edges : Edges) (reader writer before after : Nat) :
    after ∈ (edges.add (reader, writer)).out before ↔
      after ∈ edges.out before ∨ (before = reader ∧ after = writer ∧ reader ≠ writer) := by
  unfold Edges.add
  split_ifs with hnew
  · by_cases hbefore : before = reader
    · subst hbefore
      dsimp only
      rw [Function.update_self, TreeSet.mem_insert, LawfulEqOrd.compare_eq_iff_eq]
      constructor
      · rintro (rfl | hmem)
        · exact .inr ⟨rfl, rfl, hnew.1⟩
        · exact .inl hmem
      · rintro (hmem | ⟨-, rfl, -⟩)
        · exact .inr hmem
        · exact .inl rfl
    · simp [hbefore]
  · constructor
    · exact .inl
    · rintro (hmem | ⟨rfl, rfl, hne⟩)
      · exact hmem
      · by_contra hmem
        exact hnew ⟨hne, hmem⟩

theorem inDegree_add (edges : Edges) (reader writer node : Nat) :
    (edges.add (reader, writer)).inDegree node =
      if node = writer ∧ reader ≠ writer ∧ writer ∉ edges.out reader then
        edges.inDegree node + 1
      else
        edges.inDegree node := by
  unfold Edges.add
  split_ifs with hnew hnode hnode
  · obtain ⟨rfl, -⟩ := hnode
    exact Function.update_self _ _ _
  · refine Function.update_of_ne ?_ _ _
    rintro rfl
    exact hnode ⟨rfl, hnew⟩
  · exact absurd hnode.2 hnew
  · rfl

theorem EdgesOf.add {n : Nat} {pairs : List (Nat × Nat)} {edges : Edges}
    (hedges : EdgesOf n pairs edges) (hbound : reader < n) :
    EdgesOf n (pairs ++ [(reader, writer)]) (edges.add (reader, writer)) := by
  refine ⟨?_, ?_⟩
  · intro before after
    rw [mem_out_add, hedges.mem]
    simp only [mem_append, mem_singleton, Prod.mk.injEq]
    constructor
    · rintro (⟨hmem, hne⟩ | ⟨rfl, rfl, hne⟩)
      · exact ⟨.inl hmem, hne⟩
      · exact ⟨.inr ⟨rfl, rfl⟩, hne⟩
    · rintro ⟨hmem | ⟨rfl, rfl⟩, hne⟩
      · exact .inl ⟨hmem, hne⟩
      · exact .inr ⟨rfl, rfl, hne⟩
  · intro node
    rw [inDegree_add, hedges.degree]
    split_ifs with hnew
    · obtain ⟨rfl, hne, hfresh⟩ := hnew
      have hinsert : ((Finset.range n).filter fun before =>
          node ∈ (edges.add (reader, node)).out before) =
            insert reader ((Finset.range n).filter fun before => node ∈ edges.out before) := by
        ext before
        simp only [Finset.mem_filter, Finset.mem_insert, mem_out_add, Finset.mem_range]
        constructor
        · rintro ⟨hlt, hmem | ⟨rfl, -⟩⟩
          · exact .inr ⟨hlt, hmem⟩
          · exact .inl rfl
        · rintro (rfl | ⟨hlt, hmem⟩)
          · exact ⟨hbound, .inr (by simpa using hne)⟩
          · exact ⟨hlt, .inl hmem⟩
      rw [hinsert, Finset.card_insert_of_notMem]
      simp [hfresh]
    · congr 1
      ext before
      simp only [Finset.mem_filter, mem_out_add]
      constructor
      · exact fun h => ⟨h.1, .inl h.2⟩
      · rintro ⟨hlt, hmem | ⟨rfl, rfl, hne⟩⟩
        · exact ⟨hlt, hmem⟩
        · refine ⟨hlt, ?_⟩
          by_contra hmem
          exact hnew ⟨rfl, hne, hmem⟩

theorem edgesOf_foldl {n : Nat} (pairs : List (Nat × Nat)) (hbound : ∀ pair ∈ pairs, pair.1 < n) :
    EdgesOf n pairs (pairs.foldl Edges.add .empty) := by
  induction pairs using List.reverseRecOn with
  | nil => exact ⟨by simp [Edges.empty], by simp [Edges.empty]⟩
  | append_singleton pairs pair ih =>
    rw [foldl_append]
    exact (ih fun other hother => hbound other (mem_append_left _ hother)).add
      (hbound pair (mem_append_right _ mem_cons_self))

theorem edgesOf_ofKeys (batch : List (List FlatKey × List FlatKey)) :
    EdgesOf batch.length ((ConflictIndex.ofKeys batch).exactPairs ++
      (ConflictIndex.ofKeys batch).collectionPairs) (ConflictIndex.ofKeys batch).edges :=
  edgesOf_foldl _ fun _ hpair => (lt_of_mem_pairs hpair).1

def reorderGraph (batch : List (List FlatKey × List FlatKey)) :
    CycleBreaking.Graph batch.length where
  out reader := ((ConflictIndex.ofKeys batch).edges.out reader).toList
  nodup reader := by
    have hdistinct := TreeSet.distinct_toList
      (t := (ConflictIndex.ofKeys batch).edges.out reader)
    refine hdistinct.imp ?_
    intro a b hne heq
    exact hne (LawfulEqOrd.compare_eq_iff_eq.mpr heq)
  bounded hmem := by
    rw [TreeSet.mem_toList] at hmem
    exact lt_of_mem_pairs (((edgesOf_ofKeys batch).mem _ _).mp hmem).1

/-- The edges are exactly the conflicts between two transactions. -/
theorem mem_reorderGraph_iff :
    writer ∈ (reorderGraph batch).out reader ↔
      TxnsConflict batch reader writer ∧ reader ≠ writer := by
  have hedges := (edgesOf_ofKeys batch).mem reader writer
  rw [← TreeSet.mem_toList] at hedges
  refine hedges.trans (and_congr_left fun _ => ⟨txnsConflict_of_mem_pairs, ?_⟩)
  rintro ⟨read, hread, write, hwrite, hreadSide, hwriteSide, hconflict, rfl, rfl⟩
  exact mem_pairs_of_conflicts hread hwrite hreadSide hwriteSide hconflict

theorem inDegree_reorderGraph (batch : List (List FlatKey × List FlatKey)) (node : Nat) :
    (ConflictIndex.ofKeys batch).edges.inDegree node =
      ((Finset.range batch.length).filter fun before =>
        node ∈ (reorderGraph batch).out before).card := by
  rw [(edgesOf_ofKeys batch).degree]
  congr 1
  ext before
  simp [reorderGraph, TreeSet.mem_toList]

end NodeDB.Sequencer
