import FlowGraph.Family
import FlowGraph.Proofs.Dot.Building

/-!
Handles in one function, edit by edit. A handle is handed out once, finds its block until an edit
deletes it, and then nothing. An operation on a handle that finds nothing says so and changes
nothing.
-/
namespace FlowGraph

namespace Function

variable {f g : Function} {key k : BlockKey} {name tag : String} {owner : Uid} {e : Edit}

/-! ## Handles that find nothing -/

namespace Refuses

end Refuses

/-! ## The three times of a handle -/

/-- The function has handed out the handle, now or before. -/
def HandedOut (f : Function) (key : BlockKey) : Prop :=
  key.function = f.uid ∧ key.serial < f.nextSerial

/-- The block of the handle has been deleted. -/
def Retired (f : Function) (key : BlockKey) : Prop := f.HandedOut key ∧ key ∉ f.keys

/-- The handle finds a block of that name and owner. -/
def Holds (f : Function) (key : BlockKey) (name : String) (owner : Uid) : Prop :=
  ∃ b, f.block? key = some b ∧ b.name = name ∧ b.owner = owner

theorem Wired.handedOut (h : f.Wired) (hk : key ∈ f.keys) : f.HandedOut key := h.minted key hk

theorem uid_kept (uid : Uid) : Kept fun f => f.uid = uid where
  create h := h
  connect h hc := (uid_connect hc).trans h
  delete h hd := (uid_deleteBlock hd).trans h
  disconnect h hd := (uid_disconnect hd).trans h
  change h hc := (uid_editBlock hc).trans h

theorem HandedOut.kept (key : BlockKey) : Kept fun f => f.HandedOut key where
  create h := ⟨h.1, Nat.lt_succ_of_lt h.2⟩
  connect h hc := by rwa [HandedOut, uid_connect hc, nextSerial_connect hc]
  delete h hd := by rwa [HandedOut, uid_deleteBlock hd, nextSerial_deleteBlock hd]
  disconnect h hd := by rwa [HandedOut, uid_disconnect hd, nextSerial_disconnect hd]
  change h hc := by rwa [HandedOut, uid_editBlock hc, nextSerial_editBlock hc]

/-- A handle that finds nothing any more will never find anything again. -/
theorem Retired.kept (key : BlockKey) : Kept fun f => f.Retired key where
  create {f name} h := by
    refine ⟨(HandedOut.kept key).create h.1, fun hk => ?_⟩
    rw [keys_createBlock, List.mem_append, List.mem_singleton] at hk
    rcases hk with hk | rfl
    · exact h.2 hk
    · exact Nat.lt_irrefl _ h.1.2
  connect h hc := ⟨(HandedOut.kept key).connect h.1 hc, by rw [keys_connect hc]; exact h.2⟩
  delete h hd := ⟨(HandedOut.kept key).delete h.1 hd, fun hk => by
    rw [keys_deleteBlock hd] at hk
    exact h.2 (List.mem_of_mem_filter hk)⟩
  disconnect h hd := ⟨(HandedOut.kept key).disconnect h.1 hd, by
    rw [keys_disconnect hd]; exact h.2⟩
  change h hc := ⟨(HandedOut.kept key).change h.1 hc, by rw [keys_editBlock hc]; exact h.2⟩

namespace Holds

theorem mem_keys (h : f.Holds key name owner) : key ∈ f.keys := by
  obtain ⟨b, hb, -, -⟩ := h
  exact mem_keys_of_block? hb

theorem exists_of_mem (h : key ∈ f.keys) : ∃ name owner, f.Holds key name owner := by
  obtain ⟨n, hn⟩ := exists_node? h
  exact ⟨n.block.name, n.block.owner, n.block, block?_of_node? hn, rfl, rfl⟩

theorem built : Dot.Built fun f => f.Holds key name owner where
  create h := by
    obtain ⟨b, hb, hname⟩ := h
    exact ⟨b, by rw [block?_createBlock, hb, Option.some_or], hname⟩
  connect h hc := by rwa [Holds, block?_connect hc]

theorem delete {b : Block} (h : f.Holds key name owner) (hd : f.deleteBlock? k = some (b, g))
    (hk : k ≠ key) : g.Holds key name owner := by
  rwa [Holds, block?_deleteBlock hd hk.symm]

theorem disconnect {d : Edge} (h : f.Holds key name owner)
    (hd : f.disconnect? k tag = some (d, g)) : g.Holds key name owner := by
  rwa [Holds, block?_disconnect hd]

theorem change {c : BlockEdit} (h : f.Holds key name owner) (hc : f.editBlock? k c = some g) :
    g.Holds key name owner := by
  obtain ⟨b, hb, hname⟩ := h
  refine ⟨if key = k then b.edit c else b, by rw [block?_editBlock hc, hb, Option.map_some], ?_⟩
  split
  · simpa using hname
  · exact hname

/-- A block is there with its name and owner until an edit deletes it. -/
theorem apply (h : f.Holds key name owner) (he : ¬ e.Deletes f key) :
    (f.apply e).Holds key name owner := by
  have ho := outcome_apply f e
  generalize f.apply e = g at ho ⊢
  cases ho with
  | refused => exact h
  | created name => exact built.create h
  | deleted _ hgone hd => exact h.delete hd fun hk => he (hk ▸ hgone)
  | connected hc => exact built.connect h hc
  | disconnected hd => exact h.disconnect hd
  | changed hc => exact h.change hc
  | populated g => exact built.populate h g

end Holds

/-- An edit that deletes a block retires its handle. -/
theorem Wired.retired_apply (h : f.Wired) (hk : key ∈ f.keys) (he : e.Deletes f key) :
    (f.apply e).Retired key := by
  obtain ⟨gone, hgone⟩ := exists_node? hk
  obtain ⟨g, hg⟩ : ∃ g, f.deleteBlock? key = some (gone.block, g) :=
    ⟨_, deleteBlock?_eq_some_iff.mpr ⟨gone, hgone, rfl, rfl⟩⟩
  have hretired : g.Retired key :=
    ⟨(HandedOut.kept key).delete (h.handedOut hk) hg, by simp [keys_deleteBlock hg]⟩
  have happly : f.apply e = g := by
    cases e with
    | delete gone =>
        obtain rfl : gone = key := he
        simp only [Function.apply, hg]
        rfl
    | deleteNamed name =>
        have hname : f.blockNamed? name = some key := he
        simp only [Function.apply, deleteBlockNamed?, hname, Option.bind_eq_bind, Option.bind_some,
          hg]
        rfl
    | create name => exact he.elim
    | connect src dst tag => exact he.elim
    | disconnect src tag => exact he.elim
    | change target c => exact he.elim
    | populate g => exact he.elim
  rwa [happly]

/-! ## Creation -/

end Function

end FlowGraph
