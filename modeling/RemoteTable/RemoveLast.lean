import RemoteTable.ListImage
import RemoteTable.Runs

/-!
# `node_remove_last` of `list.c`

The function is declared nowhere and not called by the rest of the program. It
takes the last node off a chain and destroys its entry, but neither releases the
node nor tells that it worked, unless the chain has a single node: that one
keeps its place and a pointer to the entry that is gone.
-/

namespace RemoveLast

open CStrings Memory Entries ListOps ListMemory Ownership ListImage Runs

/-- The recursion of `node_remove_last`. -/
def nodeRemoveLast : Nat → Store → Option Nat → Except Fault (Int × Store)
  | 0, _, _ => throw .endless
  | _ + 1, σ, none => pure (-1, σ)
  | fuel + 1, σ, some node => do
    let (entry, next) ← loadNode σ (some node)
    match next with
    | none => do
      let r ← entryDestroy σ entry
      pure (0, r.2)
    | some next => do
      let r ← nodeRemoveLast fuel σ (some next)
      if r.1 = 0 then do
        let (entry, _) ← loadNode r.2 (some node)
        let σ ← r.2.store node (.node entry none)
        -- there is no other return of 0
        pure (-1, σ)
      else pure (-1, r.2)

/-- A node that was the last one, with the pointer to its destroyed entry. -/
def staleImage (n : Node) : Image := {(n.addr, .node (n.entry.map Ptr.addr) none)}

section Images

variable {R : Store → Image → Prop} (tracks : Tracks R) {σ : Store} {F : Image} {last : Node}

include tracks

theorem lastNode_image {fuel : Nat} (fits : Forgets R ∨ ∀ e, last.entry = some e → Complete e)
    (holds : R σ (chainImage none [last] + F)) :
    ∃ σ', nodeRemoveLast (fuel + 1) σ (some last.addr) = .ok (0, σ') ∧
      R σ' (staleImage last + F) ∧ σ'.next = σ.next := by
  have hload := loadNode_image (tracks.owns holds) (Multiset.le_add_right _ _)
  have parts : R σ (optionImage entryImage last.entry + (staleImage last + F)) := by
    refine tracks.congr holds ?_
    simp only [chainImage, staleImage, headAddr]
    abel
  obtain ⟨c, σ', hdestroy, holds', hnext⟩ := entryDestroy_image tracks fits parts
  refine ⟨σ', ?_, holds', hnext⟩
  simp only [nodeRemoveLast, hload, ok_bind, headAddr_nil, hdestroy, pure_eq_ok]

/-- The last node is taken off and its entry destroyed; only for a single node this is
told. -/
theorem nodeRemoveLast_image (pre : List Node)
    (fits : Forgets R ∨ ∀ e, last.entry = some e → Complete e)
    (holds : R σ (chainImage none (pre ++ [last]) + F)) {fuel : Nat} (enough : pre.length < fuel) :
    ∃ σ', nodeRemoveLast fuel σ (headAddr none (pre ++ [last])) =
        .ok (if pre = [] then 0 else -1, σ') ∧
      R σ' (chainImage none pre + (staleImage last + F)) ∧ σ'.next = σ.next := by
  induction pre generalizing σ F fuel with
  | nil =>
    obtain ⟨fuel, rfl⟩ : ∃ k, fuel = k + 1 := ⟨fuel - 1, by omega⟩
    obtain ⟨σ', hremove, holds', hnext⟩ := lastNode_image tracks fits holds
    exact ⟨σ', hremove, by simpa [chainImage] using holds', hnext⟩
  | cons n pre ih =>
    obtain ⟨fuel, rfl⟩ : ∃ k, fuel = k + 1 := ⟨fuel - 1, by omega⟩
    have hload := loadNode_image (tracks.owns holds) (Multiset.le_add_right _ _)
    have behind : R σ (chainImage none (pre ++ [last]) +
        ({(n.addr, .node (n.entry.map Ptr.addr) (headAddr none (pre ++ [last])))} +
          (optionImage entryImage n.entry + F))) := by
      refine tracks.congr holds ?_
      simp only [List.cons_append, chainImage]
      abel
    obtain ⟨σ1, hremove, holds1, hnext1⟩ := ih behind (Nat.lt_of_succ_lt_succ enough)
    cases pre with
    | nil =>
      have own : R σ1 ({(n.addr, .node (n.entry.map Ptr.addr) (some last.addr))} +
          (optionImage entryImage n.entry + (staleImage last + F))) := by
        refine tracks.congr holds1 ?_
        simp only [chainImage, List.nil_append, headAddr_cons]
        abel
      obtain ⟨σ2, hstore, holds2, hnext2⟩ := tracks.store (.node (n.entry.map Ptr.addr) none) own
      have hload1 : loadNode σ1 (some n.addr) = .ok (n.entry.map Ptr.addr, some last.addr) := by
        simp [loadNode, (tracks.owns own).load (a := n.addr)
          (b := .node (n.entry.map Ptr.addr) (some last.addr)) (by simp)]
      refine ⟨σ2, ?_, tracks.congr holds2 ?_, hnext2.trans hnext1⟩
      · simp only [List.nil_append, headAddr_cons, if_true] at hremove
        simp [nodeRemoveLast, hload, hremove, hload1, hstore]
      · simp only [chainImage, headAddr_nil]
        abel
    | cons m pre =>
      refine ⟨σ1, ?_, tracks.congr holds1 ?_, hnext1⟩
      · simp only [List.cons_append, headAddr_cons, reduceCtorEq, if_false] at hremove
        simp [nodeRemoveLast, hload, hremove]
      · simp only [chainImage, List.cons_append, headAddr_cons]
        abel

end Images

/-- A call on the first node of a chain. -/
def callStep (head : Nat) (σ : Store) (_ : Unit) : Except Fault (Int × Store) :=
  nodeRemoveLast σ.next σ (some head)

section Repeated

variable {σ : Store} {F : Image} {first last : Node}

theorem callStep_image (pre : List Node) (fits : ∀ e, last.entry = some e → Complete e)
    (starts : headAddr none (pre ++ [last]) = some first.addr)
    (holds : Exhausts σ (chainImage none (pre ++ [last]) + F)) :
    ∃ σ', callStep first.addr σ () = .ok (if pre = [] then 0 else -1, σ') ∧
      Exhausts σ' (chainImage none pre + (staleImage last + F)) := by
  have enough : pre.length < σ.next := by
    have short := length_le_card none (pre ++ [last])
    have most := holds.owns.left.card_le
    rw [List.length_append, List.length_singleton] at short
    omega
  obtain ⟨σ', hremove, holds', _⟩ :=
    nodeRemoveLast_image exhausts_tracks pre (Or.inr fits) holds enough
  rw [starts] at hremove
  exact ⟨σ', hremove, holds'⟩

/-- The only node left points to an entry that is gone. -/
theorem callStep_stale {e : Ptr Entry} (present : first.entry = some e)
    (gone : σ.cell e.addr = none) (holds : Exhausts σ (staleImage first + F)) :
    callStep first.addr σ () = .error .deadBlock := by
  have hload : loadNode σ (some first.addr) = .ok (some e.addr, none) := by
    simp [loadNode, holds.owns.load (a := first.addr) (b := .node (some e.addr) none)
      (by simp [staleImage, present])]
  obtain ⟨fuel, hfuel⟩ : ∃ k, σ.next = k + 1 := by
    have most := holds.owns.left.card_le
    rw [staleImage, Multiset.card_singleton] at most
    exact ⟨σ.next - 1, by omega⟩
  have dead : loadEntry σ (some e.addr) = .error .deadBlock := by
    simp [loadEntry, Heap.load_dead gone]
  rw [callStep, hfuel]
  simp [nodeRemoveLast, hload, entryDestroy, dead]

/-- The entry of a single node is gone after the call. -/
theorem single_gone {e : Ptr Entry} {σ' : Store} (present : first.entry = some e)
    (before : Exhausts σ (chainImage none [first] + F))
    (after : Exhausts σ' (staleImage first + F)) : σ'.cell e.addr = none := by
  have apart : Owns σ ({(e.addr, .entry (e.obj.key.map Ptr.addr) (e.obj.value.map Ptr.addr))} +
      (staleImage first + F + (optionImage keyImage e.obj.key +
        optionImage dataImage e.obj.value))) := by
    refine before.owns.congr ?_
    simp only [chainImage, staleImage, present, optionImage, entryImage, headAddr_nil]
    abel
  by_contra live
  obtain ⟨b, hb⟩ := Option.ne_none_iff_exists'.mp live
  refine apart.not_mem (Multiset.mem_map.mpr ⟨(e.addr, b), ?_, rfl⟩)
  exact Multiset.mem_add.mpr (Or.inl (after.all _ _ hb))

/-- All nodes but the first: each call takes one off. -/
theorem callStep_longer {rest : List Node}
    (complete : ∀ n ∈ first :: (rest ++ [last]), ∃ e, n.entry = some e ∧ Complete e)
    (holds : Exhausts σ (chainImage none (first :: (rest ++ [last])) + F)) :
    ∃ σ', callStep first.addr σ () = .ok (-1, σ') ∧
      Exhausts σ' (chainImage none (first :: rest) + (staleImage last + F)) := by
  have fits : ∀ e, last.entry = some e → Complete e := by
    intro e he
    obtain ⟨e', he', whole⟩ := complete last (by simp)
    cases he.symm.trans he'
    exact whole
  obtain ⟨σ', hcall, holds'⟩ := callStep_image (first :: rest) fits rfl holds
  exact ⟨σ', by simpa using hcall, holds'⟩

theorem callStep_single (complete : ∃ e, first.entry = some e ∧ Complete e)
    (holds : Exhausts σ (chainImage none [first] + F)) :
    ∃ σ', callStep first.addr σ () = .ok (0, σ') ∧ Exhausts σ' (staleImage first + F) ∧
      callStep first.addr σ' () = .error .deadBlock := by
  obtain ⟨e, present, whole⟩ := complete
  have fits : ∀ e', first.entry = some e' → Complete e' := by
    intro e' he'
    cases present.symm.trans he'
    exact whole
  obtain ⟨σ', hcall, holds'⟩ := callStep_image [] fits rfl holds
  have stale : Exhausts σ' (staleImage first + F) := by simpa [chainImage] using holds'
  exact ⟨σ', hcall, stale, callStep_stale present (single_gone present holds stale) stale⟩

/-- Until there is one node left, and its entry is gone as well. -/
theorem calls_destroy (rest : List Node)
    (complete : ∀ n ∈ first :: rest, ∃ e, n.entry = some e ∧ Complete e)
    (holds : Exhausts σ (chainImage none (first :: rest) + F))
    (earlier : List (Event Store Unit Int)) :
    ∃ history σ', play (callStep first.addr) (List.replicate (rest.length + 1) ()) earlier σ =
        .ok (history, σ') ∧ Exhausts σ' (((first :: rest).map staleImage).sum + F) := by
  induction rest using List.reverseRecOn generalizing σ F earlier with
  | nil =>
    obtain ⟨σ', hcall, holds', _⟩ := callStep_single (complete first (by simp)) holds
    refine ⟨⟨σ, (), 0, σ'⟩ :: earlier, σ', ?_, by simpa using holds'⟩
    simp [play, hcall]
  | append_singleton rest last ih =>
    obtain ⟨σ1, hcall, holds1⟩ := callStep_longer complete holds
    obtain ⟨history, σ', hplay, holds'⟩ := ih (fun n hn => complete n (List.mem_append_left _ hn))
      holds1 (⟨σ, (), -1, σ1⟩ :: earlier)
    refine ⟨history, σ', ?_, exhausts_tracks.congr holds' ?_⟩
    · rw [List.length_append, List.length_singleton, List.replicate_succ]
      simpa only [play, hcall] using hplay
    · simp only [List.map_cons, List.map_append, List.map_nil, List.sum_cons, List.sum_append,
        List.sum_nil]
      abel

theorem calls_tell (rest : List Node)
    (complete : ∀ n ∈ first :: rest, ∃ e, n.entry = some e ∧ Complete e)
    (holds : Exhausts σ (chainImage none (first :: rest) + F)) (more : Nat) :
    trace (callStep first.addr) (List.replicate (rest.length + 1 + more) ()) σ =
      (List.replicate rest.length (-1) ++ [0], if more = 0 then none else some .deadBlock) := by
  induction rest using List.reverseRecOn generalizing σ F with
  | nil =>
    obtain ⟨σ', hcall, _, again⟩ := callStep_single (complete first (by simp)) holds
    cases more with
    | zero => simp [trace, hcall]
    | succ more =>
      have count : ([] : List Node).length + 1 + (more + 1) = more + 1 + 1 := by
        rw [List.length_nil]
        omega
      rw [count]
      simp [trace, hcall, again, List.replicate_succ]
  | append_singleton rest last ih =>
    obtain ⟨σ1, hcall, holds1⟩ := callStep_longer complete holds
    have later := ih (fun n hn => complete n (List.mem_append_left _ hn)) holds1
    have count : (rest ++ [last]).length + 1 + more = (rest.length + 1 + more) + 1 := by
      rw [List.length_append, List.length_singleton]
      omega
    rw [count, List.replicate_succ, List.length_append, List.length_singleton,
      List.replicate_succ]
    simp only [trace, hcall, later, List.cons_append]

/-- Called again and again on the first node of a chain, the function destroys all
entries from the last on, tells so of the first one's alone, and then reads that one. All
nodes are still there. -/
theorem removeLast_repeated (rest : List Node)
    (complete : ∀ n ∈ first :: rest, ∃ e, n.entry = some e ∧ Complete e)
    (holds : Exhausts σ (chainImage none (first :: rest) + F)) (more : Nat) :
    trace (callStep first.addr) (List.replicate (rest.length + 1 + more) ()) σ =
      (List.replicate rest.length (-1) ++ [0], if more = 0 then none else some .deadBlock) ∧
    ∃ history σ', play (callStep first.addr) (List.replicate (rest.length + 1) ()) [] σ =
        .ok (history, σ') ∧ Exhausts σ' (((first :: rest).map staleImage).sum + F) :=
  ⟨calls_tell rest complete holds more, calls_destroy rest complete holds []⟩

end Repeated

def entryOf (a : Nat) (key : CString) : Ptr Entry := ⟨a, ⟨some ⟨a - 2, key⟩, some ⟨a - 1, ⟨1, none⟩⟩⟩⟩

/-- Two entries on a chain. -/
def twoNodes : Store :=
  [Block.chars keyA, .data 1 none, .entry (some 0) (some 1), .chars keyB, .data 1 none,
    .entry (some 3) (some 4), .node (some 5) none, .node (some 2) (some 6)].foldl Heap.alloc .empty

theorem removeLast_repeated_sample : ∃ first rest, rest.length = 1 ∧
    Exhausts twoNodes (chainImage none (first :: rest) + 0) ∧
    trace (callStep first.addr) (List.replicate 3 ()) twoNodes = ([-1, 0], some .deadBlock) := by
  have holds : Exhausts twoNodes (chainImage none [⟨7, some (entryOf 2 keyA)⟩,
      ⟨6, some (entryOf 5 keyB)⟩] + 0) :=
    exhausts_tracks.congr (exhausts_liveBlocks twoNodes) (by decide)
  have complete : ∀ n ∈ [(⟨7, some (entryOf 2 keyA)⟩ : Node), ⟨6, some (entryOf 5 keyB)⟩],
      ∃ e, n.entry = some e ∧ Complete e := by
    simp [Complete, entryOf]
  refine ⟨_, _, rfl, holds, ?_⟩
  exact (removeLast_repeated [⟨6, some (entryOf 5 keyB)⟩] complete holds 1).1

end RemoveLast
