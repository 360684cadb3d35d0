import SkynetHotfix.Lua.PatternRuns

/-!
# Splitting strings

`string.split` of `common/base/luaext.lua` and `string_split` of `common/base/util.lua`, on bytes.
Both write the delimiter into a set of a pattern. For every byte but `%` they return the runs of the
string, and `string_split` goes on with the next delimiter in each of these (`split_iff`).
-/

namespace SkynetHotfix.Luaext

open Lua Pattern Runs

/-- `string.split(s, delim)` -/
def split (s delim : Str) : Res (List Captured) := do
  let pattern := [91, 94] ++ delim ++ [93, 43] -- "[^" .. delim .. "]+"
  let (_, _, split) ← Pattern.gsub s pattern
    (fun values split => .ok (none, split ++ values.take 1)) []
  .ok split

/-- What `string_split` returns: a value, or a table of such results. -/
inductive Pieces
  | value (v : Captured)
  | table (t : List Pieces)

/-- A value as the subject of a match. -/
def text : Captured → Str
  | .str v => v
  | .int i => (toString i).toUTF8.toList

/-- `string_split(inputstr, ...)` -/
def string_split (inputstr : Captured) : List Str → Res Pieces
  | [] => .ok (.value inputstr)
  | sep :: seps => do
    let pattern := [40, 91, 94] ++ sep ++ [93, 43, 41] -- "([^" .. sep .. "]+)"
    let result := (← gmatch (text inputstr) pattern).flatMap (·.take 1)
    if seps = [] then .ok (.table (result.map .value))
    else .table <$> result.mapM fun v => string_split v seps

/-- What there should be: the runs, in each of these those of the next delimiter, and so on. -/
def nest : List UInt8 → Str → Pieces
  | [], s => .value (.str s)
  | d :: ds, s => .table ((runs d s).map (nest ds))

/-- No part of the string is left when it comes to a `%`. -/
def Reads (ds : List UInt8) (s : Str) : Prop :=
  L_ESC ∈ ds → ds.head? ≠ some L_ESC ∧ ∀ c ∈ s, c ∈ ds.takeWhile (· ≠ L_ESC)

variable {d : UInt8} {ds : List UInt8} {s : Str}

/-! ## One delimiter -/

theorem foldl_append (l : List Str) (acc : List Captured) :
    l.foldl (fun acc v => acc ++ [.str v]) acc = acc ++ l.map .str := by
  induction l generalizing acc with
  | nil => simp
  | cons v l ih =>
    rw [List.foldl_cons, ih, List.append_assoc]
    rfl

theorem split_eq (hd : d ≠ L_ESC) (s : Str) : split s [d] = .ok ((runs d s).map .str) := by
  obtain ⟨r, hr, hsplit⟩ := gsub_runs (takesRuns hd) (by simp [ofRun])
    (fun values split => .ok (none, split ++ values.take 1))
    (fun acc v => acc ++ [.str v]) (fun _ _ => rfl) s []
  rw [foldl_append, List.nil_append] at hsplit
  show Pattern.gsub s (ofRun d []) _ [] >>= _ = _
  rw [hr, Fuel.ok_bind, ← hsplit]

theorem split_percent (s : Str) : split s [L_ESC] = raise "malformed pattern (missing ']')" := by
  show Pattern.gsub s (ofRun L_ESC []) _ [] >>= _ = _
  rw [gsub_raise (by decide) matchAt_unclosed]
  rfl

/-! ## Several delimiters -/

theorem mapM_eq_ok_iff {α β γ : Type} {f : α → Res β} {g : γ → α} {h : γ → β} {l : List γ} :
    (l.map g).mapM f = .ok (l.map h) ↔ ∀ v ∈ l, f (g v) = .ok (h v) := by
  induction l with
  | nil => exact ⟨fun _ _ hv => absurd hv List.not_mem_nil, fun _ => rfl⟩
  | cons v l ih =>
    rw [List.map_cons, List.mapM_cons, List.forall_mem_cons, ← ih, Fuel.bind_eq_ok]
    constructor
    · rintro ⟨b, hb, hrest⟩
      obtain ⟨bs, hbs, heq⟩ := Fuel.bind_eq_ok.mp hrest
      obtain ⟨rfl, rfl⟩ := List.cons.inj (Except.ok.inj heq)
      exact ⟨hb, hbs⟩
    · rintro ⟨hb, hbs⟩
      exact ⟨h v, hb, by rw [hbs, Fuel.ok_bind]; rfl⟩

theorem string_split_percent (s : Captured) (seps : List Str) :
    string_split s ([L_ESC] :: seps) = raise "malformed pattern (missing ']')" := by
  show gmatch _ (40 :: ofRun L_ESC [41]) >>= _ = _
  rw [gmatch_raise matchAt_unclosed_captured]
  rfl

/-- The delimiters behind the first split each of its runs. -/
theorem string_split_cons (hd : d ≠ L_ESC) (s : Str) (ds : List UInt8) :
    string_split (.str s) ((d :: ds).map ([·])) = .ok (nest (d :: ds) s) ↔
      ∀ v ∈ runs d s, string_split (.str v) (ds.map ([·])) = .ok (nest ds v) := by
  have hvalues : ((runs d s).map fun v => [Captured.str v]).flatMap (·.take 1) =
      (runs d s).map .str := by
    rw [List.flatMap_map, List.map_eq_flatMap]
    rfl
  have hgmatch : string_split (.str s) ((d :: ds).map ([·])) =
      if ds.map ([·]) = [] then .ok (.table (((runs d s).map .str).map .value))
      else .table <$> ((runs d s).map .str).mapM fun v => string_split v (ds.map ([·])) := by
    show gmatch s (40 :: ofRun d [41]) >>= _ = _
    rw [gmatch_runs (takesRuns_captured hd), Fuel.ok_bind, hvalues]
  rw [hgmatch]
  cases ds with
  | nil =>
    refine ⟨fun _ _ _ => rfl, fun _ => ?_⟩
    rw [List.map_nil, if_pos rfl, List.map_map]
    rfl
  | cons d' ds =>
    have hmapM := mapM_eq_ok_iff (f := fun v => string_split v ((d' :: ds).map ([·])))
      (g := .str) (h := nest (d' :: ds)) (l := runs d s)
    rw [if_neg (by simp), ← hmapM]
    constructor
    · intro h
      obtain ⟨t, ht, heq⟩ := Fuel.bind_eq_ok.mp ((map_eq_pure_bind ..).symm.trans h)
      rw [ht, Pieces.table.inj (Except.ok.inj heq)]
    · intro h
      rw [h]
      rfl

/-- A `%` behind a delimiter is come to in the runs of that. -/
theorem reads_cons (hd : d ≠ L_ESC) :
    Reads (d :: ds) s ↔ ∀ v ∈ runs d s, Reads ds v := by
  have hmem : L_ESC ∈ d :: ds ↔ L_ESC ∈ ds := by simp [Ne.symm hd]
  have htake : (d :: ds).takeWhile (· ≠ L_ESC) = d :: ds.takeWhile (· ≠ L_ESC) :=
    List.takeWhile_cons_of_pos (by simpa using hd)
  have hruns : ∀ {c}, (∃ u ∈ runs d s, c ∈ u) ↔ c ∈ s ∧ c ≠ d := mem_run_iff
  unfold Reads
  rw [hmem, htake]
  constructor
  · intro h v hv hesc
    have hin : ∀ c ∈ v, c ∈ ds.takeWhile (· ≠ L_ESC) := by
      intro c hc
      obtain ⟨hs, hne⟩ := hruns.mp ⟨v, hv, hc⟩
      exact (List.mem_cons.mp ((h hesc).2 c hs)).resolve_left hne
    refine ⟨fun hhead => ?_, hin⟩
    obtain ⟨c, hc⟩ := List.exists_mem_of_ne_nil v (ne_nil_of_mem hv)
    have := hin c hc
    cases ds with
    | nil => simp at hhead
    | cons d' ds =>
      obtain rfl := Option.some.inj hhead
      simp at this
  · intro h hesc
    refine ⟨fun hhead => hd (Option.some.inj hhead), fun c hc => ?_⟩
    by_cases hcd : c = d
    · exact hcd ▸ List.mem_cons_self
    · obtain ⟨v, hv, hcv⟩ := hruns.mpr ⟨hc, hcd⟩
      exact List.mem_cons_of_mem _ ((h v hv hesc).2 c hcv)

theorem string_split_iff (ds : List UInt8) (s : Str) :
    string_split (.str s) (ds.map ([·])) = .ok (nest ds s) ↔ Reads ds s := by
  induction ds generalizing s with
  | nil => simp [string_split, nest, Reads]
  | cons d ds ih =>
    by_cases hd : d = L_ESC
    · subst hd
      rw [List.map_cons, string_split_percent]
      refine ⟨fun h => by simp [raise] at h, fun h => ?_⟩
      exact absurd rfl (h List.mem_cons_self).1
    · rw [string_split_cons hd, reads_cons hd]
      exact forall₂_congr fun v _ => ih v

/-- Both split at every byte but `%`, and several delimiters nest as long as there is nothing left
of the string when it comes to a `%`. -/
theorem splits_iff (s : Str) :
    (∀ d, split s [d] = .ok ((runs d s).map .str) ↔ d ≠ L_ESC) ∧
      ∀ ds : List UInt8, string_split (.str s) (ds.map ([·])) = .ok (nest ds s) ↔ Reads ds s := by
  refine ⟨fun d => ⟨?_, fun hd => split_eq hd s⟩, fun ds => string_split_iff ds s⟩
  rintro h rfl
  rw [split_percent] at h
  simp [raise] at h

/-- Both raise for a `%`. -/
theorem splits_percent :
    ¬ ∀ s, (∀ d, split s [d] = .ok ((runs d s).map .str)) ∧
      ∀ ds : List UInt8, string_split (.str s) (ds.map ([·])) = .ok (nest ds s) := by
  intro h
  have hpercent := (h [97, 37, 98]).1 L_ESC
  rw [split_percent] at hpercent
  simp [raise] at hpercent

end SkynetHotfix.Luaext
