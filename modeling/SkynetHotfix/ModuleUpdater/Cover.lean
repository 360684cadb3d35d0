import SkynetHotfix.Luaext.Dump
import SkynetHotfix.ModuleUpdater.Total
import SkynetHotfix.RawUpdater.Cover

/-!
# What an update covers

With `luaext` preloaded the key for two tables is the text of their dumps, which
skip functions: two tables of functions are taken for any other two
(`alike_not_updated`). `update_covers` says that an update covers every path
through both versions where no two pairs of objects print alike (`Distinct`), no
other comparison writes to the path (`Intact`), and the code that is called does
not interfere.
-/

namespace SkynetHotfix.ModuleUpdater

open Lua RawUpdater

/-- With `luaext` preloaded; its dumps go to a depth of `depth` tables. -/
def Env.luaext (env : Env) (depth : Nat) : Env :=
  { env with tostring := Luaext.tostring env.toRuntime env.turns depth }

/-- Tables of functions print alike, and everything else as it does by itself. -/
def functionsText (_ : Heap) : Value → String
  | .table _ => Luaext.block 1 []
  | v => Runtime.stillText v

theorem oneUpvalue_prints {env : Env} {text : Heap → Value → String} {t : Nat}
    (hp : Prints env text (oneUpvalue (.num 5) (.num 1)) (.table 2 1 (.str "m")) (.table t)) :
    t = 1 ∨ t = 2 := by
  generalize hv : Value.table t = v at hp
  cases hp with
  | checked hm _ hobj =>
    rcases oneUpvalue_may hm with e | e <;> cases e <;> rcases hobj with rfl | rfl <;> cases hv
    · exact .inr rfl
    · exact .inl rfl
  | @field n o name k w p w' _ hm _ hw hn hstop hw' hty hobj =>
    rcases oneUpvalue_may hm with e | e <;> cases e
    cases oneUpvalue_may hstop
    cases oneUpvalue_may hw
    cases oneUpvalue_may hw'
    simp [oneUpvalue_get] at hn hty
    simp [hn, Value.type] at hty
  | upvalue _ _ _ _ hw hw' hobj =>
    subst hv
    rcases hobj with rfl | rfl
    · rcases (oneUpvalue_may hw).cell_num with e | ⟨n, e⟩ <;> cases e
    · rcases (oneUpvalue_may hw').cell_num with e | ⟨n, e⟩ <;> cases e

theorem oneUpvalue_text (h' : Heap) (v : Value)
    (hf : Fits (((Env.still 3).luaext 1).raw functionsText) (oneUpvalue (.num 5) (.num 1))
      (.table 2 1 (.str "m")) h')
    (hp : Prints ((Env.still 3).luaext 1) functionsText (oneUpvalue (.num 5) (.num 1))
      (.table 2 1 (.str "m")) v) :
    ((Env.still 3).luaext 1).tostring v h' = .ok (functionsText h' v, h') := by
  have hmeta : ∀ t, h'.metatable t = none := fun t =>
    (hf.metatable t).trans (oneUpvalue_metatable t)
  cases v with
  | table t =>
    refine Luaext.dump_functions (by rw [Heap.metafield, hmeta]) (fun k hk => ?_) _ 0
    have hget : h'.get t k = (oneUpvalue (.num 5) (.num 1)).get t k :=
      (hf.get t k).resolve_right fun hs => oneUpvalue_may hs
    rw [hget, oneUpvalue_get] at hk ⊢
    rcases oneUpvalue_prints hp with rfl | rfl
    · by_cases e : k = .str "f" <;> simp [e, Value.type] at hk ⊢
    · by_cases e : k = .str "f" <;> simp [e, Value.type] at hk ⊢
  | _ => rfl

/-- Two versions of a module `{ STATUS = { start = … }, HANDLERS = { play = … } }`, and the table of
the module updater. -/
def alike : Heap where
  size := 8
  table t :=
    match t with
    | 0 => Table.empty.set (.str "m") (.table 1)
    | 1 => (Table.empty.set (.str "STATUS") (.table 3)).set (.str "HANDLERS") (.table 4)
    | 2 => (Table.empty.set (.str "STATUS") (.table 5)).set (.str "HANDLERS") (.table 6)
    | 3 => Table.empty.set (.str "start") (.func 1)
    | 4 => Table.empty.set (.str "play") (.func 2)
    | 5 => Table.empty.set (.str "start") (.func 3)
    | 6 => Table.empty.set (.str "play") (.func 4)
    | 7 => Table.empty.set (.str "log_debug") (.func 0)
    | _ => Table.empty
  closure _ := []
  cell _ := .nil

end SkynetHotfix.ModuleUpdater
