import FlowGraph.Ledger
import FlowGraph.Proofs.Module.Loading

/-!
The functions of a module keep apart. Whatever is done to a module, at most one function comes,
goes or changes, and the others stay as they are and in their order. So the module holds what was
created in it and not deleted.
-/
namespace FlowGraph

/-! ## What an edit of a function leaves alone -/

namespace Function

variable {f : Function}

theorem identity_kept (uid : Uid) (name : String) (owner : Uid) :
    Kept fun f => f.uid = uid ∧ f.name = name ∧ f.owner = owner where
  create h := h
  connect h hc := by
    obtain ⟨-, -, -, rfl⟩ := connect_eq_ok_iff.mp hc
    exact h
  delete h hd := by
    obtain ⟨-, -, -, rfl⟩ := deleteBlock?_eq_some_iff.mp hd
    exact h
  disconnect h hd := by
    obtain ⟨-, rfl⟩ := disconnect?_eq_some_iff.mp hd
    exact h
  change h hc := by
    obtain ⟨-, rfl⟩ := editBlock?_eq_some_iff.mp hc
    exact h

/-- An edit leaves a function its identity, its name and its module. -/
theorem identity_apply (f : Function) (e : Edit) :
    (f.apply e).uid = f.uid ∧ (f.apply e).name = f.name ∧ (f.apply e).owner = f.owner :=
  (identity_kept f.uid f.name f.owner).apply ⟨rfl, rfl, rfl⟩ e

/-- The function is of that module, and its blocks are its own. -/
def OwnedBy (f : Function) (owner : Uid) : Prop :=
  f.owner = owner ∧ ∀ p ∈ f.blocks, p.2.owner = f.uid

namespace OwnedBy

theorem empty (uid : Uid) (name : String) (owner : Uid) :
    (Function.empty uid name owner).OwnedBy owner :=
  ⟨rfl, by simp [Function.empty, blocks]⟩

theorem kept (owner : Uid) : Kept fun f => f.OwnedBy owner where
  create {f name} h := by
    refine ⟨h.1, fun p hp => ?_⟩
    rw [blocks_createBlock] at hp
    rcases List.mem_append.mp hp with hp | hp
    · exact h.2 p hp
    · obtain rfl := List.mem_singleton.mp hp
      rfl
  connect {f src dst tag g} h hc := by
    obtain ⟨-, -, howner⟩ := (identity_kept f.uid f.name f.owner).connect ⟨rfl, rfl, rfl⟩ hc
    exact ⟨howner.trans h.1, by rw [blocks_connect hc, uid_connect hc]; exact h.2⟩
  delete {f key b g} h hd := by
    obtain ⟨-, -, howner⟩ := (identity_kept f.uid f.name f.owner).delete ⟨rfl, rfl, rfl⟩ hd
    refine ⟨howner.trans h.1, fun p hp => ?_⟩
    rw [blocks_deleteBlock hd] at hp
    exact (h.2 p (List.mem_filter.mp hp).1).trans (uid_deleteBlock hd).symm
  disconnect {f src tag e g} h hd := by
    obtain ⟨-, -, howner⟩ := (identity_kept f.uid f.name f.owner).disconnect ⟨rfl, rfl, rfl⟩ hd
    exact ⟨howner.trans h.1, by rw [blocks_disconnect hd, uid_disconnect hd]; exact h.2⟩
  change {f key e g} h hc := by
    obtain ⟨-, -, howner⟩ := (identity_kept f.uid f.name f.owner).change ⟨rfl, rfl, rfl⟩ hc
    refine ⟨howner.trans h.1, fun p hp => ?_⟩
    rw [blocks_editBlock hc] at hp
    obtain ⟨q, hq, rfl⟩ := List.mem_map.mp hp
    have hq := h.2 q hq
    rw [uid_editBlock hc]
    split
    · simpa using hq
    · exact hq

end OwnedBy

end Function

namespace Module

variable {m n : Module} {f g : Function} {key : FunctionKey} {uid : Uid} {name : String}
  {before after : List Member}

/-! ## Finding a function -/

theorem function?_eq_none_iff : m.function? key = none ↔ key ∉ m.keys := by
  simp [function?, keys]

theorem exists_split (h : m.function? key = some f) :
    ∃ before after, m.members = before ++ ⟨key, f⟩ :: after := by
  obtain ⟨x, hx, rfl⟩ := Option.map_eq_some_iff.mp h
  obtain rfl : x.key = key := by simpa using List.find?_some hx
  exact List.append_of_mem (List.mem_of_find?_eq_some hx)

section split

variable (hk : m.keys.Nodup) (h : m.members = before ++ ⟨key, f⟩ :: after)
include hk h

theorem key_ne_of_split : ∀ x ∈ before ++ after, x.key ≠ key := by
  rw [keys, h, List.map_append, List.map_cons, List.nodup_middle, List.nodup_cons,
    ← List.map_append] at hk
  exact fun x hx he => hk.1 (List.mem_map.mpr ⟨x, hx, he⟩)

theorem function?_of_split : m.function? key = some f := by
  have hbefore : before.find? (·.key = key) = none := List.find?_eq_none.mpr fun x hx => by
    simpa using key_ne_of_split hk h x (List.mem_append_left after hx)
  simp [function?, h, List.find?_append, hbefore]

theorem replace_of_split (g : Function) :
    m.replace key g = { m with members := before ++ ⟨key, g⟩ :: after } := by
  have hold : ∀ xs ⊆ before ++ after,
      xs.map (fun x => if x.key = key then { x with function := g } else x) = xs := fun xs hxs =>
    (List.map_congr_left fun x hx => if_neg (key_ne_of_split hk h x (hxs hx))).trans
      (List.map_id' xs)
  simp only [Module.replace, h, List.map_append, List.map_cons, ↓reduceIte,
    hold before (List.subset_append_left before after),
    hold after (List.subset_append_right before after)]

theorem filter_of_split : m.members.filter (·.key ≠ key) = before ++ after := by
  have hold : (before ++ after).filter (·.key ≠ key) = before ++ after :=
    List.filter_eq_self.mpr fun x hx => by simpa using key_ne_of_split hk h x hx
  rw [List.filter_append] at hold
  simpa [h, List.filter_append, List.filter_cons] using hold

theorem deleteFunction?_of_split :
    m.deleteFunction? key = some (f, { m with members := before ++ after }) := by
  rw [deleteFunction?, function?_of_split hk h, filter_of_split hk h]
  rfl

end split

theorem functionNamed?_eq_none_iff :
    m.functionNamed? name = none ↔ ∀ x ∈ m.members, x.function.name ≠ name := by
  simp [functionNamed?]

theorem exists_split_of_functionNamed? (h : m.functionNamed? name = some key) :
    ∃ before f after, m.members = before ++ ⟨key, f⟩ :: after ∧ f.name = name ∧
      ∀ x ∈ before, x.function.name ≠ name := by
  obtain ⟨x, hx, rfl⟩ := Option.map_eq_some_iff.mp h
  obtain ⟨hname, before, after, hmembers, hbefore⟩ := List.find?_eq_some_iff_append.mp hx
  exact ⟨before, x.function, after, hmembers, by simpa using hname, by simpa using hbefore⟩

/-! ## One edit -/

/-- A module before and after an edit, with what is created and what is deleted. Where nothing
comes, goes or changes a handle may still be used up. -/
inductive Change (m : Module) : Module → List Origin → List FunctionKey → Prop
  | grow (f : Function) (h : f.OwnedBy m.uid) :
      Change m (m.push f) [⟨⟨m.nextSerial⟩, f.uid, f.name⟩] []
  | shrink {before after : List Member} {key : FunctionKey} {f : Function}
      (h : m.members = before ++ ⟨key, f⟩ :: after) :
      Change m { m with members := before ++ after } [] [key]
  | alter {before after : List Member} {key : FunctionKey} {f : Function} (e : Function.Edit)
      (h : m.members = before ++ ⟨key, f⟩ :: after) :
      Change m { m with members := before ++ ⟨key, f.apply e⟩ :: after } [] []
  | stay {serial : Nat} (h : m.nextSerial ≤ serial) :
      Change m { m with nextSerial := serial } [] []

namespace Change

theorem same : Change m m [] [] := stay (Nat.le_refl m.nextSerial)

theorem delete (hk : m.keys.Nodup) (h : m.function? key = some f) :
    Change m (((m.deleteFunction? key).map (·.2)).getD m) [] [key] := by
  obtain ⟨before, after, hmembers⟩ := exists_split h
  rw [deleteFunction?_of_split hk hmembers]
  exact shrink hmembers

theorem load (hm : m.Minted) (uid : Uid) (source : String) :
    Change m (m.apply (.load uid source)) ((Edit.load uid source).creates m) [] := by
  cases hread : Dot.Graph.read source with
  | error e =>
      have hload : m.load uid source = .ok ⟨m, .error (.malformed e), []⟩ := load_of_read_error hread
      simp only [Module.apply, Edit.creates, hload, hread]
      exact same
  | ok graph =>
      cases hbuild : graph.populate (.empty uid graph.name m.uid) with
      | mk b failure =>
          obtain ⟨⟨module, outcome, events⟩, hload, hsuccess, hfailure⟩ :=
            hm.load_of_read hread hbuild
          simp only [Module.apply, Edit.creates, hload, hread]
          cases failure with
          | none =>
              obtain ⟨rfl, rfl⟩ := hsuccess rfl
              have howned := (Function.OwnedBy.kept m.uid).apply (.empty uid graph.name m.uid)
                (.populate graph)
              obtain ⟨huid, hname, -⟩ := Function.identity_apply (.empty uid graph.name m.uid)
                (.populate graph)
              simp only [Function.apply, hbuild] at howned huid hname
              have hgrow := grow b.function howned
              rwa [huid, hname] at hgrow
          | some e =>
              obtain ⟨rfl, rfl⟩ := hfailure e rfl
              exact stay (Nat.le_succ m.nextSerial)

theorem apply (hm : m.Minted) (hk : m.keys.Nodup) (e : Edit) :
    Change m (m.apply e) (e.creates m) (e.deletes m) := by
  cases e with
  | create uid name => exact grow _ (.empty uid name m.uid)
  | delete key =>
      simp only [Module.apply, Edit.creates, Edit.deletes]
      cases hf : m.function? key with
      | none => simpa [deleteFunction?, hf] using same
      | some f => simpa using delete hk hf
  | deleteNamed name =>
      simp only [Module.apply, Edit.creates, Edit.deletes, deleteFunctionNamed?]
      cases hn : m.functionNamed? name with
      | none => exact same
      | some key =>
          obtain ⟨before, f, after, hmembers, -⟩ := exists_split_of_functionNamed? hn
          exact delete hk (function?_of_split hk hmembers)
  | load uid source => exact load hm uid source
  | edit key e =>
      simp only [Module.apply, Edit.creates, Edit.deletes]
      cases hf : m.function? key with
      | none => exact same
      | some f =>
          obtain ⟨before, after, hmembers⟩ := exists_split hf
          simp only [Option.map_some, Option.getD_some, replace_of_split hk hmembers]
          exact alter e hmembers

end Change

/-! ## Histories -/

/-- What a module holds when `created` came to it and `deleted` went. -/
structure Ledger (uid : Uid) (m : Module) (created : List Origin) (deleted : List FunctionKey) :
    Prop where
  uid_eq : m.uid = uid
  listed : m.members.map Member.origin = created.filter (·.key ∉ deleted)
  nodup : (created.map (·.key)).Nodup
  minted : ∀ o ∈ created, o.key.serial < m.nextSerial
  known : ∀ key ∈ deleted, key ∈ created.map (·.key)
  owned : ∀ x ∈ m.members, x.function.OwnedBy uid

namespace Ledger

variable {created cs : List Origin} {deleted ds : List FunctionKey}

theorem empty (uid : Uid) (name : String) : Ledger uid (.empty uid name) [] [] where
  uid_eq := rfl
  listed := rfl
  nodup := List.nodup_nil
  minted := by simp
  known := by simp
  owned := by simp [Module.empty]

section

variable (h : Ledger uid m created deleted)
include h

theorem origin_mem {x : Member} (hx : x ∈ m.members) : x.origin ∈ created := by
  have hmem : x.origin ∈ m.members.map Member.origin := List.mem_map_of_mem hx
  rw [h.listed] at hmem
  exact (List.mem_filter.mp hmem).1

theorem module_minted : m.Minted := fun x hx => h.minted x.origin (h.origin_mem hx)

theorem keys_eq : m.keys = (created.map (·.key)).filter (· ∉ deleted) := by
  have hkeys : m.keys = (m.members.map Member.origin).map (·.key) := by
    simp [keys, Member.origin, Function.comp_def]
  rw [hkeys, h.listed, List.filter_map]
  rfl

theorem keys_nodup : m.keys.Nodup := by
  rw [h.keys_eq]
  exact h.nodup.filter _

theorem serial_lt {key : FunctionKey} (hk : key ∈ deleted) : key.serial < m.nextSerial := by
  obtain ⟨o, ho, rfl⟩ := List.mem_map.mp (h.known key hk)
  exact h.minted o ho

theorem grow (hf : f.OwnedBy m.uid) :
    Ledger uid (m.push f) (created ++ [⟨⟨m.nextSerial⟩, f.uid, f.name⟩]) deleted where
  uid_eq := h.uid_eq
  listed := by
    have hnew : (⟨m.nextSerial⟩ : FunctionKey) ∉ deleted := fun hk =>
      Nat.lt_irrefl m.nextSerial (h.serial_lt hk)
    simp [push, Member.origin, h.listed, List.filter_append, hnew]
  nodup := by
    rw [List.map_append, List.map_singleton, ← List.concat_eq_append]
    refine List.Nodup.concat (fun hk => ?_) h.nodup
    obtain ⟨o, ho, hkey⟩ := List.mem_map.mp hk
    have hlt := h.minted o ho
    simp [hkey] at hlt
  minted o ho := by
    rcases List.mem_append.mp ho with ho | ho
    · exact Nat.lt_succ_of_lt (h.minted o ho)
    · obtain rfl := List.mem_singleton.mp ho
      exact Nat.lt_succ_self m.nextSerial
  known key hk := by
    rw [List.map_append]
    exact List.mem_append_left _ (h.known key hk)
  owned x hx := by
    rcases List.mem_append.mp hx with hx | hx
    · exact h.owned x hx
    · obtain rfl := List.mem_singleton.mp hx
      exact h.uid_eq ▸ hf

theorem shrink (hsplit : m.members = before ++ ⟨key, f⟩ :: after) :
    Ledger uid { m with members := before ++ after } created (deleted ++ [key]) where
  uid_eq := h.uid_eq
  listed := by
    have hfilter : created.filter (·.key ∉ deleted ++ [key]) =
        (m.members.map Member.origin).filter (·.key ≠ key) := by
      rw [h.listed, List.filter_filter]
      simp [and_comm]
    rw [hfilter, List.filter_map, ← filter_of_split h.keys_nodup hsplit]
    rfl
  nodup := h.nodup
  minted := h.minted
  known k hk := by
    rcases List.mem_append.mp hk with hk | hk
    · exact h.known k hk
    · obtain rfl := List.mem_singleton.mp hk
      exact List.mem_map_of_mem (h.origin_mem (x := ⟨k, f⟩) (by simp [hsplit]))
  owned x hx := by
    refine h.owned x ?_
    rw [hsplit]
    exact ((List.sublist_cons_self ⟨key, f⟩ after).append_left before).subset hx

theorem alter (e : Function.Edit) (hsplit : m.members = before ++ ⟨key, f⟩ :: after) :
    Ledger uid { m with members := before ++ ⟨key, f.apply e⟩ :: after } created deleted where
  uid_eq := h.uid_eq
  listed := by
    obtain ⟨huid, hname, -⟩ := f.identity_apply e
    rw [← h.listed, hsplit]
    simp [Member.origin, huid, hname]
  nodup := h.nodup
  minted := h.minted
  known := h.known
  owned x hx := by
    rcases List.mem_append.mp hx with hx | hx
    · exact h.owned x (by simp [hsplit, hx])
    · rcases List.mem_cons.mp hx with rfl | hx
      · exact (Function.OwnedBy.kept uid).apply (h.owned ⟨key, f⟩ (by simp [hsplit])) e
      · exact h.owned x (by simp [hsplit, hx])

theorem stay {serial : Nat} (hs : m.nextSerial ≤ serial) :
    Ledger uid { m with nextSerial := serial } created deleted where
  uid_eq := h.uid_eq
  listed := h.listed
  nodup := h.nodup
  minted o ho := Nat.lt_of_lt_of_le (h.minted o ho) hs
  known := h.known
  owned := h.owned

theorem change (hc : Change m n cs ds) : Ledger uid n (created ++ cs) (deleted ++ ds) := by
  cases hc with
  | grow f hf => simpa using h.grow hf
  | shrink hsplit => simpa using h.shrink hsplit
  | alter e hsplit => simpa using h.alter e hsplit
  | stay hs => simpa using h.stay hs

end

theorem run (h : Ledger uid m created deleted) (history : List Edit) :
    Ledger uid (m.run history) (created ++ m.created history) (deleted ++ m.deleted history) := by
  induction history generalizing m created deleted with
  | nil => simpa [Module.run, Module.created, Module.deleted] using h
  | cons e es ih =>
      have hstep := h.change (Change.apply h.module_minted h.keys_nodup e)
      simpa [Module.run, Module.created, Module.deleted] using ih hstep

end Ledger

/-- The functions of a module keep apart: each is found under a handle of its own, is of this
module, and is deleted or edited without the others. -/
structure Apart (m : Module) : Prop where
  keys_nodup : m.keys.Nodup
  function_eq : ∀ x ∈ m.members, m.function x.key = .ok x.function
  owner_eq : ∀ x ∈ m.members, x.function.owner = m.uid
  block_owner_eq : ∀ x ∈ m.members, ∀ p ∈ x.function.blocks, p.2.owner = x.function.uid
  delete : ∀ key, m.deleteFunction? key = none ∧ key ∉ m.keys ∨
    ∃ before f after, m.members = before ++ ⟨key, f⟩ :: after ∧
      m.deleteFunction? key = some (f, { m with members := before ++ after })
  deleteNamed : ∀ name,
    m.deleteFunctionNamed? name = none ∧ (∀ x ∈ m.members, x.function.name ≠ name) ∨
    ∃ before key f after, m.members = before ++ ⟨key, f⟩ :: after ∧ f.name = name ∧
      (∀ x ∈ before, x.function.name ≠ name) ∧
      m.deleteFunctionNamed? name = some (f, { m with members := before ++ after })
  edit : ∀ key e, m.apply (.edit key e) = m ∧ key ∉ m.keys ∨
    ∃ before f after, m.members = before ++ ⟨key, f⟩ :: after ∧
      m.apply (.edit key e) = { m with members := before ++ ⟨key, f.apply e⟩ :: after }

theorem Ledger.apart {created : List Origin} {deleted : List FunctionKey}
    (h : Ledger uid m created deleted) : m.Apart where
  keys_nodup := h.keys_nodup
  function_eq x hx := by
    obtain ⟨before, after, hsplit⟩ := List.append_of_mem hx
    rw [Module.function, function?_of_split h.keys_nodup hsplit]
  owner_eq x hx := (h.owned x hx).1.trans h.uid_eq.symm
  block_owner_eq x hx := (h.owned x hx).2
  delete key := by
    cases hf : m.function? key with
    | none => exact .inl ⟨by simp [deleteFunction?, hf], function?_eq_none_iff.mp hf⟩
    | some f =>
        obtain ⟨before, after, hsplit⟩ := exists_split hf
        exact .inr ⟨before, f, after, hsplit, deleteFunction?_of_split h.keys_nodup hsplit⟩
  deleteNamed name := by
    cases hn : m.functionNamed? name with
    | none => exact .inl ⟨by simp [deleteFunctionNamed?, hn], functionNamed?_eq_none_iff.mp hn⟩
    | some key =>
        obtain ⟨before, f, after, hsplit, hname, hbefore⟩ := exists_split_of_functionNamed? hn
        refine .inr ⟨before, key, f, after, hsplit, hname, hbefore, ?_⟩
        simp [deleteFunctionNamed?, hn, deleteFunction?_of_split h.keys_nodup hsplit]
  edit key e := by
    simp only [Module.apply]
    cases hf : m.function? key with
    | none => exact .inl ⟨rfl, function?_eq_none_iff.mp hf⟩
    | some f =>
        obtain ⟨before, after, hsplit⟩ := exists_split hf
        exact .inr ⟨before, f, after, hsplit, replace_of_split h.keys_nodup hsplit _⟩

/-- A load that fails leaves a gap in the handles, and a handle that was deleted is not given out
again. -/
example :
    let source := "digraph g \x7b a -> b [label=t]; a -> c [label=t] \x7d"
    let history : List Edit :=
      [.create ⟨1⟩ "f", .load ⟨2⟩ source, .deleteNamed "f", .create ⟨3⟩ "f", .delete ⟨0⟩]
    (empty ⟨0⟩ "m").created history = [⟨⟨0⟩, ⟨1⟩, "f"⟩, ⟨⟨2⟩, ⟨3⟩, "f"⟩] ∧
      (empty ⟨0⟩ "m").deleted history = [⟨0⟩] := by
  cbv

end Module

end FlowGraph
