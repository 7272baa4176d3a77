import Mathlib.Data.List.AList
import Nginz.AroopTxt
import Nginz.Lib.Arena

/-! Composite plugins: functions are plugged under plugin spaces, in chains that start in a
hash table. -/
namespace Nginz

inductive PluginCategory where
  | callback | composite | bridge | invalid
  deriving DecidableEq, Repr

/-- A hash table of the library: a finite map on the bytes of its keys, and the order in which
it is traversed. -/
structure OppHashOtable (V : Type) where
  Table : Type
  create : Table
  getNoRef : Table → Bytes → Option V
  set : Table → Bytes → V → Table
  traverse : Table → List (Bytes × V)
  get_create : ∀ key, getNoRef create key = none
  get_set : ∀ table key v key',
    getNoRef (set table key v) key' = if key' = key then some v else getNoRef table key'
  traverse_nodup : ∀ table, ((traverse table).map Prod.fst).Nodup
  mem_traverse : ∀ table key v, (key, v) ∈ traverse table ↔ getNoRef table key = some v

/-- A table that is traversed from the last key set to the first. -/
def OppHashOtable.alist (V : Type) : OppHashOtable V where
  Table := AList fun _ : Bytes => V
  create := ∅
  getNoRef table key := table.lookup key
  set table key v := table.insert key v
  traverse table := table.entries.map fun e => (e.1, e.2)
  get_create _ := rfl
  get_set table key v key' := by
    by_cases h : key' = key
    · subst h
      simp
    · simp [h]
  traverse_nodup table := by
    rw [List.map_map]
    exact table.nodupKeys
  mem_traverse table key v := by
    constructor
    · intro h
      obtain ⟨⟨k, u⟩, he, heq⟩ := List.mem_map.mp h
      obtain ⟨rfl, rfl⟩ := Prod.mk.inj heq
      exact AList.mem_lookup_iff.mpr he
    · intro h
      exact List.mem_map.mpr ⟨⟨key, v⟩, AList.mem_lookup_iff.mp h, rfl⟩

/-- A plugin, but for its link. The union `x` is one pointer. -/
structure InternalPlugin (P : Type) where
  category : PluginCategory
  pluginSpace : Bytes
  x : P
  desc : P
  filename : Bytes
  lineno : ℕ

variable {P σ : Type}

/-- A container: the plugins that its factory made, by their addresses, and the table of the
first plugin of each space. -/
structure CompositePlugin (T : OppHashOtable ℕ) (P : Type) where
  factory : List (Arena.Cell (InternalPlugin P))
  table : T.Table

variable (T : OppHashOtable ℕ)

def compositePluginCreate : CompositePlugin T P := ⟨[], T.create⟩

/-- `none` when an assertion fails or the search for the last plugin has no end. -/
def compositePlugHelper (container : CompositePlugin T P) (pluginSpace : Bytes)
    (callback bridge inner : Option P) (desc : P) (filename : Bytes) (lineno : ℕ) :
    Option (CompositePlugin T P) :=
  let kind :=
    match callback, bridge, inner with
    | some f, _, _ => some (PluginCategory.callback, f)
    | none, some f, _ => some (.bridge, f)
    | none, none, some p => some (.composite, p)
    | none, none, none => none
  kind.bind fun (category, x) =>
    let plugin := container.factory.length
    let factory := container.factory ++ [⟨⟨category, pluginSpace, x, desc, filename, lineno⟩, none⟩]
    let plugged :=
      match T.getNoRef container.table pluginSpace with
      | some root => (Arena.last factory factory.length root).map fun last =>
        { container with factory := Arena.link factory last plugin }
      | none => some ⟨factory, T.set container.table pluginSpace plugin⟩
    -- the plugin is still the end of its chain
    plugged.bind fun container =>
      match container.factory[plugin]? with
      | some ⟨_, none⟩ => some container
      | _ => none

def compositePlugCallback (container : CompositePlugin T P) (pluginSpace : Bytes)
    (callback desc : P) (filename : Bytes) (lineno : ℕ) : Option (CompositePlugin T P) :=
  compositePlugHelper T container pluginSpace (some callback) none none desc filename lineno

def compositePlugBridge (container : CompositePlugin T P) (pluginSpace : Bytes)
    (bridge desc : P) (filename : Bytes) (lineno : ℕ) : Option (CompositePlugin T P) :=
  compositePlugHelper T container pluginSpace none (some bridge) none desc filename lineno

def compositePlugInnerComposite (container : CompositePlugin T P) (pluginSpace : Bytes)
    (inner desc : P) (filename : Bytes) (lineno : ℕ) : Option (CompositePlugin T P) :=
  compositePlugHelper T container pluginSpace none none (some inner) desc filename lineno

/-- The results and the state after the callbacks of a space; the input and the output are part
of the state. -/
def compositePluginCall (invoke : P → σ → BitVec 32 × σ) (container : CompositePlugin T P)
    (pluginSpace : Bytes) (s : σ) : Option (BitVec 32 × σ) :=
  Arena.forEach container.factory
    (fun r plugin =>
      if plugin.category ≠ .callback then none
      else
        let called := invoke plugin.x r.2
        some (r.1 ||| called.1, called.2))
    container.factory.length (T.getNoRef container.table pluginSpace) (0, s)

def compositePluginBridgeCall (invoke : P → BitVec 32 → σ → BitVec 32 × σ)
    (container : CompositePlugin T P) (pluginSpace : Bytes) (signature : BitVec 32) (s : σ) :
    Option (BitVec 32 × σ) :=
  Arena.forEach container.factory
    (fun r plugin =>
      if plugin.category ≠ .bridge then none
      else
        let called := invoke plugin.x signature r.2
        some (r.1 ||| called.1, called.2))
    container.factory.length (T.getNoRef container.table pluginSpace) (0, s)

/-- The visitor is given the union as a callback, as a bridge and as a container. -/
def compositePluginVisitAllHelper (visitor : PluginCategory → Bytes → P → P → P → P → σ → σ)
    (container : CompositePlugin T P) (plugin : ℕ) (s : σ) : Option σ :=
  Arena.forEach container.factory
    (fun s p => some (visitor p.category p.pluginSpace p.x p.x p.x p.desc s))
    container.factory.length (some plugin) s

def compositePluginVisitAll (visitor : PluginCategory → Bytes → P → P → P → P → σ → σ)
    (container : CompositePlugin T P) (s : σ) : Option σ :=
  (T.traverse container.table).foldlM
    (fun s item => compositePluginVisitAllHelper T visitor container item.2 s) s

/-! ### Sequences of registrations -/

inductive PluginRegistration (P : Type) where
  | callback (pluginSpace : Bytes) (callback desc : P) (filename : Bytes) (lineno : ℕ)
  | bridge (pluginSpace : Bytes) (bridge desc : P) (filename : Bytes) (lineno : ℕ)
  | innerComposite (pluginSpace : Bytes) (inner desc : P) (filename : Bytes) (lineno : ℕ)

/-- The plugin of a registration. -/
def PluginRegistration.plugin : PluginRegistration P → InternalPlugin P
  | callback space f desc filename lineno => ⟨.callback, space, f, desc, filename, lineno⟩
  | bridge space f desc filename lineno => ⟨.bridge, space, f, desc, filename, lineno⟩
  | innerComposite space p desc filename lineno => ⟨.composite, space, p, desc, filename, lineno⟩

def PluginRegistration.plug (container : CompositePlugin T P) :
    PluginRegistration P → Option (CompositePlugin T P)
  | callback space f desc filename lineno =>
    compositePlugCallback T container space f desc filename lineno
  | bridge space f desc filename lineno =>
    compositePlugBridge T container space f desc filename lineno
  | innerComposite space p desc filename lineno =>
    compositePlugInnerComposite T container space p desc filename lineno

/-- The registrations under a space, in their order. -/
def registeredUnder (s : Bytes) (rs : List (PluginRegistration P)) : List (InternalPlugin P) :=
  (rs.map PluginRegistration.plugin).filter fun p => p.pluginSpace = s

/-- Some functions called one after another: the bitwise OR of their results, and the state. -/
def callEach (invoke : P → σ → BitVec 32 × σ) (fs : List P) (s : σ) : BitVec 32 × σ :=
  fs.foldl (fun r f => (r.1 ||| (invoke f r.2).1, (invoke f r.2).2)) (0, s)

/-- The chains of a container hold what was registered. -/
structure CompositePlugin.Holds (container : CompositePlugin T P)
    (rs : List (PluginRegistration P)) : Prop where
  size : container.factory.length = rs.length
  chain : ∀ s, ∃ xs, Arena.Chain container.factory (T.getNoRef container.table s) xs ∧
    (xs.map Prod.fst).Nodup ∧ xs.map Prod.snd = registeredUnder s rs

theorem create_holds : (compositePluginCreate T : CompositePlugin T P).Holds T [] := by
  refine ⟨rfl, fun s => ⟨[], ?_, List.nodup_nil, rfl⟩⟩
  show Arena.Chain [] (T.getNoRef T.create s) []
  rw [T.get_create]
  exact .nil

theorem registeredUnder_append (s : Bytes) (rs : List (PluginRegistration P))
    (r : PluginRegistration P) :
    registeredUnder s (rs ++ [r]) =
      registeredUnder s rs ++ if r.plugin.pluginSpace = s then [r.plugin] else [] := by
  unfold registeredUnder
  rw [List.map_append, List.filter_append]
  by_cases h : r.plugin.pluginSpace = s <;> simp [h]

/-- Each way to plug is `composite_plug_helper` with its kind. -/
theorem plug_eq (container : CompositePlugin T P) (r : PluginRegistration P) :
    r.plug T container =
      (let factory := container.factory ++ [⟨r.plugin, none⟩]
       let plugged : Option (CompositePlugin T P) :=
        match T.getNoRef container.table r.plugin.pluginSpace with
        | some root => (Arena.last factory factory.length root).map fun last =>
          { container with factory := Arena.link factory last container.factory.length }
        | none => some ⟨factory, T.set container.table r.plugin.pluginSpace
          container.factory.length⟩
       plugged.bind fun c =>
        match c.factory[container.factory.length]? with
        | some ⟨_, none⟩ => some c
        | _ => none) := by
  cases r <;> rfl

/-- A container whose newest plugin is in no chain yet. -/
structure CompositePlugin.Pending (container : CompositePlugin T P)
    (rs : List (PluginRegistration P)) (p : InternalPlugin P) : Prop where
  size : container.factory.length = rs.length + 1
  cell : container.factory[rs.length]? = some ⟨p, none⟩
  chain : ∀ s, ∃ xs, Arena.Chain container.factory (T.getNoRef container.table s) xs ∧
    (xs.map Prod.fst).Nodup ∧ xs.map Prod.snd = registeredUnder s rs ∧ rs.length ∉ xs.map Prod.fst

variable {T} {container : CompositePlugin T P} {rs : List (PluginRegistration P)}
  {r : PluginRegistration P}

theorem CompositePlugin.Holds.pending (h : container.Holds T rs) (p : InternalPlugin P) :
    CompositePlugin.Pending T ⟨container.factory ++ [⟨p, none⟩], container.table⟩ rs p where
  size := by simp [h.size]
  cell := by
    rw [← h.size]
    exact List.getElem?_concat_length
  chain s := by
    obtain ⟨xs, hchain, hnodup, hvalues⟩ := h.chain s
    refine ⟨xs, hchain.alloc ⟨p, none⟩, hnodup, hvalues, fun hmem => ?_⟩
    obtain ⟨x, hx, heq⟩ := List.mem_map.mp hmem
    have hlt := hchain.address_lt hx
    have hsize := h.size
    omega

/-- The first plugin of a space goes into the table. -/
theorem CompositePlugin.Pending.first (h : container.Pending T rs r.plugin)
    (hroot : T.getNoRef container.table r.plugin.pluginSpace = none) :
    CompositePlugin.Holds T ⟨container.factory,
      T.set container.table r.plugin.pluginSpace rs.length⟩
      (rs ++ [r]) where
  size := by simp [h.size]
  chain s := by
    obtain ⟨xs, hchain, hnodup, hvalues, -⟩ := h.chain s
    show ∃ ys, Arena.Chain container.factory (T.getNoRef (T.set _ _ _) s) ys ∧ _
    rw [T.get_set, registeredUnder_append]
    by_cases hs : s = r.plugin.pluginSpace
    · subst hs
      rw [hroot] at hchain
      cases hchain with
      | nil =>
        refine ⟨[(rs.length, r.plugin)], ?_, List.nodup_singleton _, ?_⟩
        · rw [if_pos rfl]
          exact .cons h.cell .nil
        · rw [← hvalues, if_pos rfl]
          rfl
    · refine ⟨xs, ?_, hnodup, ?_⟩
      · rw [if_neg hs]
        exact hchain
      · rw [if_neg (Ne.symm hs), List.append_nil]
        exact hvalues

/-- The space of a plugin is that of its chain. -/
theorem space_of_registered {s : Bytes} {xs : List (ℕ × InternalPlugin P)}
    (h : xs.map Prod.snd = registeredUnder s rs) {x : ℕ × InternalPlugin P} (hx : x ∈ xs) :
    x.2.pluginSpace = s := by
  have hmem : x.2 ∈ registeredUnder s rs := h ▸ List.mem_map_of_mem hx
  exact of_decide_eq_true (List.mem_filter.mp hmem).2

/-- A later plugin of a space is linked to the last one. -/
theorem CompositePlugin.Pending.next (h : container.Pending T rs r.plugin) {root : ℕ}
    (hroot : T.getNoRef container.table r.plugin.pluginSpace = some root) :
    ∃ last, Arena.last container.factory container.factory.length root = some last ∧
      (Arena.link container.factory last rs.length)[rs.length]? = some ⟨r.plugin, none⟩ ∧
      CompositePlugin.Holds T ⟨Arena.link container.factory last rs.length, container.table⟩
        (rs ++ [r]) := by
  obtain ⟨ys, hys, hysnodup, hysvalues, hysnew⟩ := h.chain r.plugin.pluginSpace
  rw [hroot] at hys
  obtain ⟨x, hlast, hfound, hend⟩ := hys.last_eq rfl (hys.length_le hysnodup)
  have hx : x ∈ ys := List.mem_of_getLast? hlast
  have hne : rs.length ≠ x.1 := fun heq => hysnew (heq ▸ List.mem_map_of_mem hx)
  refine ⟨x.1, hfound, (Arena.link_other hne).trans h.cell, ?_, fun s => ?_⟩
  · rw [Arena.link_length, h.size, List.length_append]
    rfl
  · show ∃ xs, Arena.Chain (Arena.link _ _ _) (T.getNoRef container.table s) xs ∧ _
    rw [registeredUnder_append]
    by_cases hs : s = r.plugin.pluginSpace
    · subst hs
      refine ⟨ys ++ [(rs.length, r.plugin)], ?_, ?_, ?_⟩
      · rw [hroot]
        exact hys.append hysnodup hlast h.cell hysnew
      · rw [List.map_append]
        refine List.nodup_append.mpr ⟨hysnodup, List.nodup_singleton _, fun a ha b hb heq => ?_⟩
        rw [heq, List.mem_singleton.mp hb] at ha
        exact hysnew ha
      · rw [List.map_append, hysvalues, if_pos rfl]
        rfl
    · -- the chains of the other spaces do not have the cell that is linked
      obtain ⟨xs, hchain, hnodup, hvalues, -⟩ := h.chain s
      refine ⟨xs, hchain.frame fun y hy => Arena.link_other fun heq => ?_, hnodup, ?_⟩
      · obtain ⟨next, hcell⟩ := hchain.value hy
        rw [heq, hend] at hcell
        have hvalue : x.2 = y.2 := congrArg Arena.Cell.value (Option.some.inj hcell)
        have hyspace := space_of_registered hvalues hy
        rw [← hvalue, space_of_registered hysvalues hx] at hyspace
        exact hs hyspace.symm
      · rw [if_neg (Ne.symm hs), List.append_nil]
        exact hvalues

/-- A registration goes through, and its plugin is the last one of its space. -/
theorem CompositePlugin.Holds.plug (h : container.Holds T rs) (r : PluginRegistration P) :
    ∃ container', r.plug T container = some container' ∧ container'.Holds T (rs ++ [r]) := by
  have hpending := h.pending r.plugin
  rw [plug_eq, h.size]
  cases hroot : T.getNoRef container.table r.plugin.pluginSpace with
  | none => exact ⟨_, by simp [hpending.cell], hpending.first hroot⟩
  | some root =>
    obtain ⟨last, hlast, hcell, hholds⟩ := hpending.next hroot
    dsimp only at hlast hcell
    exact ⟨_, by simp only [hlast, Option.map_some, Option.bind_some, hcell], hholds⟩

/-- Any sequence of registrations goes through. -/
theorem CompositePlugin.Holds.plugAll (h : container.Holds T rs)
    (more : List (PluginRegistration P)) :
    ∃ container', more.foldlM (PluginRegistration.plug T) container = some container' ∧
      container'.Holds T (rs ++ more) := by
  induction more generalizing container rs with
  | nil => exact ⟨container, rfl, by rw [List.append_nil]; exact h⟩
  | cons r more ih =>
    obtain ⟨c, hc, hnext⟩ := h.plug r
    obtain ⟨c', hc', hholds⟩ := ih hnext
    refine ⟨c', ?_, ?_⟩
    · rw [List.foldlM_cons, hc]
      exact hc'
    · rw [List.append_assoc] at hholds
      exact hholds

/-! ### Dispatch -/

/-- The loop over the chain of a space. -/
theorem CompositePlugin.Holds.forEach_space (h : container.Holds T rs) {β : Type}
    (body : β → InternalPlugin P → Option β) (s : Bytes) (b : β) :
    Arena.forEach container.factory body container.factory.length (T.getNoRef container.table s) b =
      (registeredUnder s rs).foldlM body b := by
  obtain ⟨xs, hchain, hnodup, hvalues⟩ := h.chain s
  rw [← hvalues]
  exact hchain.forEach_eq body (hchain.length_le hnodup) b

/-- When all plugins have the category that is asserted, each is called. -/
theorem foldlM_category (category : PluginCategory) (invoke : P → σ → BitVec 32 × σ)
    {ps : List (InternalPlugin P)} (h : ∀ p ∈ ps, p.category = category) (r : BitVec 32 × σ) :
    ps.foldlM (fun r plugin =>
        if plugin.category ≠ category then none
        else
          let called := invoke plugin.x r.2
          some (r.1 ||| called.1, called.2)) r =
      some ((ps.map InternalPlugin.x).foldl
        (fun r f => (r.1 ||| (invoke f r.2).1, (invoke f r.2).2)) r) := by
  induction ps generalizing r with
  | nil => rfl
  | cons p ps ih =>
    have hp := h p List.mem_cons_self
    have hrest := ih fun q hq => h q (List.mem_cons_of_mem _ hq)
    rw [List.foldlM_cons, if_neg (not_not.mpr hp)]
    exact hrest _

/-- The visitor goes over the plugins of a space that is in the table. -/
theorem CompositePlugin.Holds.visit_space (h : container.Holds T rs)
    (visitor : PluginCategory → Bytes → P → P → P → P → σ → σ) {s : Bytes} {root : ℕ}
    (hroot : T.getNoRef container.table s = some root) (w : σ) :
    compositePluginVisitAllHelper T visitor container root w =
      some ((registeredUnder s rs).foldl
        (fun w p => visitor p.category p.pluginSpace p.x p.x p.x p.desc w) w) := by
  unfold compositePluginVisitAllHelper
  rw [← hroot, h.forEach_space]
  exact List.foldlM_pure

/-- What the keys of a list select is what they have in common with it. -/
theorem flatMap_filter_perm_mem {α κ : Type} [DecidableEq κ] (f : α → κ) (l : List α)
    {keys : List κ} (hnodup : keys.Nodup) :
    (keys.flatMap fun k => l.filter fun a => f a = k).Perm (l.filter fun a => f a ∈ keys) := by
  induction keys with
  | nil => simp
  | cons k keys ih =>
    obtain ⟨hk, hkeys⟩ := List.nodup_cons.mp hnodup
    have hsplit := List.filter_append_perm (fun a => decide (f a = k))
      (l.filter fun a => decide (f a ∈ k :: keys))
    rw [List.filter_filter, List.filter_filter] at hsplit
    have hown : (l.filter fun a => decide (f a = k) && decide (f a ∈ k :: keys)) =
        l.filter fun a => decide (f a = k) := by
      refine List.filter_congr fun a _ => ?_
      by_cases h : f a = k <;> simp [h]
    have hothers : (l.filter fun a => !decide (f a = k) && decide (f a ∈ k :: keys)) =
        l.filter fun a => decide (f a ∈ keys) := by
      refine List.filter_congr fun a _ => ?_
      by_cases h : f a = k
      · simp [h, hk]
      · simp [h]
    rw [hown, hothers] at hsplit
    rw [List.flatMap_cons]
    exact ((ih hkeys).append_left _).trans hsplit

theorem flatMap_filter_perm {α κ : Type} [DecidableEq κ] (f : α → κ) {l : List α} {keys : List κ}
    (hnodup : keys.Nodup) (hall : ∀ a ∈ l, f a ∈ keys) :
    (keys.flatMap fun k => l.filter fun a => f a = k).Perm l :=
  (flatMap_filter_perm_mem f l hnodup).trans
    (.of_eq (List.filter_eq_self.mpr fun a ha => decide_eq_true (hall a ha)))

/-- The plugins in the order in which they are visited. -/
def visitOrder (container : CompositePlugin T P) (rs : List (PluginRegistration P)) :
    List (InternalPlugin P) :=
  (T.traverse container.table).flatMap fun item => registeredUnder item.1 rs

/-- A space with a plugin is in the table. -/
theorem CompositePlugin.Holds.traversed (h : container.Holds T rs) {r : PluginRegistration P}
    (hr : r ∈ rs) :
    r.plugin.pluginSpace ∈ (T.traverse container.table).map Prod.fst := by
  obtain ⟨xs, hchain, -, hvalues⟩ := h.chain r.plugin.pluginSpace
  have hmem : r.plugin ∈ registeredUnder r.plugin.pluginSpace rs :=
    List.mem_filter.mpr ⟨List.mem_map_of_mem hr, decide_eq_true rfl⟩
  cases hroot : T.getNoRef container.table r.plugin.pluginSpace with
  | none =>
    rw [hroot] at hchain
    cases hchain with
    | nil =>
      rw [← hvalues] at hmem
      exact absurd hmem List.not_mem_nil
  | some root => exact List.mem_map.mpr ⟨_, (T.mem_traverse _ _ _).mpr hroot, rfl⟩

theorem CompositePlugin.Holds.visitOrder_perm (h : container.Holds T rs) :
    (visitOrder container rs).Perm (rs.map PluginRegistration.plugin) := by
  have hspaces : ∀ p ∈ rs.map PluginRegistration.plugin,
      p.pluginSpace ∈ (T.traverse container.table).map Prod.fst := by
    intro p hp
    obtain ⟨r, hr, rfl⟩ := List.mem_map.mp hp
    exact h.traversed hr
  have hselect := flatMap_filter_perm InternalPlugin.pluginSpace (T.traverse_nodup container.table)
    hspaces
  rw [List.flatMap_map] at hselect
  exact hselect

theorem CompositePlugin.Holds.visit_all (h : container.Holds T rs)
    (visitor : PluginCategory → Bytes → P → P → P → P → σ → σ) (w : σ) :
    compositePluginVisitAll T visitor container w =
      some ((visitOrder container rs).foldl
        (fun w p => visitor p.category p.pluginSpace p.x p.x p.x p.desc w) w) := by
  have hroots :
      ∀ item ∈ T.traverse container.table, T.getNoRef container.table item.1 = some item.2 :=
    fun item hitem => (T.mem_traverse _ _ _).mp hitem
  unfold compositePluginVisitAll visitOrder
  generalize T.traverse container.table = items at hroots
  induction items generalizing w with
  | nil => rfl
  | cons item items ih =>
    have hvisit := h.visit_space visitor (hroots item List.mem_cons_self) w
    rw [List.foldlM_cons, hvisit, List.flatMap_cons, List.foldl_append]
    exact ih _ fun i hi => hroots i (List.mem_cons_of_mem _ hi)

/-- After any registrations, a call on a space calls the functions registered under it, once
each and in their order, and returns the bitwise OR of their results; a visit is one of every
plugin. -/
theorem plugin_dispatch (T : OppHashOtable ℕ) (rs : List (PluginRegistration P)) :
    ∃ container : CompositePlugin T P,
      rs.foldlM (PluginRegistration.plug T) (compositePluginCreate T) = some container ∧
      (∀ s, (∀ p ∈ registeredUnder s rs, p.category = .callback) →
        ∀ (invoke : P → σ → BitVec 32 × σ) (w : σ), compositePluginCall T invoke container s w =
          some (callEach invoke ((registeredUnder s rs).map InternalPlugin.x) w)) ∧
      (∀ s, (∀ p ∈ registeredUnder s rs, p.category = .bridge) →
        ∀ (invoke : P → BitVec 32 → σ → BitVec 32 × σ) (signature : BitVec 32) (w : σ),
          compositePluginBridgeCall T invoke container s signature w =
            some (callEach (invoke · signature) ((registeredUnder s rs).map InternalPlugin.x) w)) ∧
      ∃ visited : List (InternalPlugin P), visited.Perm (rs.map PluginRegistration.plugin) ∧
        ∀ (visitor : PluginCategory → Bytes → P → P → P → P → σ → σ) (w : σ),
          compositePluginVisitAll T visitor container w = some (visited.foldl
            (fun w p => visitor p.category p.pluginSpace p.x p.x p.x p.desc w) w) := by
  obtain ⟨container, hplug, h⟩ := (create_holds T).plugAll rs
  rw [List.nil_append] at h
  refine ⟨container, hplug, fun s hs invoke w => ?_, fun s hs invoke signature w => ?_,
    visitOrder container rs, h.visitOrder_perm, h.visit_all⟩
  · exact (h.forEach_space _ s _).trans (foldlM_category .callback invoke hs _)
  · exact (h.forEach_space _ s _).trans (foldlM_category .bridge (invoke · signature) hs _)

/-- Two callbacks with a bridge between them. -/
theorem plugin_dispatch_interleaved :
    ∃ container : CompositePlugin (.alist ℕ) ℕ,
      [PluginRegistration.callback (lit "help") 1 0 [] 7, .bridge (lit "login") 2 0 [] 8,
        .callback (lit "help") 4 0 [] 9].foldlM (PluginRegistration.plug _)
          (compositePluginCreate _) = some container ∧
      compositePluginCall _ (fun f called => (BitVec.ofNat 32 f, called ++ [f])) container
        (lit "help") [] = some (5, [1, 4]) := by
  obtain ⟨container, hplug, hcall, -⟩ := plugin_dispatch (σ := List ℕ) (.alist ℕ)
    [PluginRegistration.callback (lit "help") 1 0 [] 7, .bridge (lit "login") 2 0 [] 8,
      .callback (lit "help") 4 0 [] 9]
  refine ⟨container, hplug, ?_⟩
  rw [hcall (lit "help") (by decide)]
  decide

end Nginz
