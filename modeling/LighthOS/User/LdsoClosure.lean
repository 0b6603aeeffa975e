/-
# The libraries that a program needs

`load_needed` walks over the `DT_NEEDED` entries of an object, loads the libraries that are
not there yet and calls itself for each of them.  The only record of what it has seen is
`g_libs`, in which a library is found by what stands behind the last `/` of its path.

The dynamic sections of the main program and of the libraries make up a graph, which may
have cycles (`Needed`).  If the libraries can be loaded, and loading does not overwrite the
dynamic sections, `load_needed` loads each library that can be reached from the main program
once and no other; if there are more than `MAX_LIBS` of them it ends the process
(`loadNeeded_closure`).
-/

import LighthOS.User.Ldso

namespace LighthOS

open Prog

variable {env : LdEnv} {s s' s₀ : LdState} {o obj : LoadedObj} {n path : Bytes} {fuel fuel' : ℕ}

/-! ### What `load_so` returns -/

/-- More rounds change nothing once `load_so` returns. -/
theorem loadSo_mono (env : LdEnv) (path : Bytes) (hle : fuel ≤ fuel') :
    Approx (loadSo env fuel path) (loadSo env fuel' path) := by
  have hentries : ∀ (m : UMem) (k k' d : ℕ) (obj : LoadedObj), k ≤ k' →
      Approx (parseEntries m k d obj) (parseEntries m k' d obj) := by
    intro m k
    induction k with
    | zero => exact fun k' d obj _ => .runsOn _
    | succ k ih =>
        intro k' d obj hk
        obtain ⟨k', rfl⟩ := Nat.exists_eq_add_of_lt hk
        exact .ite (.refl _) (ih _ _ _ (by omega))
  unfold loadSo
  split
  · exact .refl _
  · refine .ite (.refl _) (.bind (.refl _) fun s => .ite (.refl _) (.bind (.refl _) fun _ => ?_))
    refine .bind (.refl _) fun _ => .bind (.refl _) fun ok => .ite (.refl _) (.ite (.refl _) ?_)
    exact .bind (.bind (.refl _) fun _ => .bind (hentries _ _ _ _ _ hle) fun _ => .refl _) fun _ => .refl _

theorem loadSo_unique {r r' : Option LoadedObj} (h : loadSo env fuel path s = .ok r s')
    {t : LdState} (h' : loadSo env fuel' path s = .ok r' t) : r' = r ∧ t = s' := by
  rcases Nat.le_total fuel fuel' with hle | hle
  · rw [loadSo_mono env path hle h] at h'
    cases h'
    exact ⟨rfl, rfl⟩
  · rw [loadSo_mono env path hle h'] at h
    cases h
    exact ⟨rfl, rfl⟩

/-- The main program and the libraries stay the same. -/
def SameObjs (s s' : LdState) : Prop := s'.main = s.main ∧ s'.libs = s.libs

instance : Std.Refl SameObjs := ⟨fun _ => ⟨rfl, rfl⟩⟩

instance : IsTrans LdState SameObjs := ⟨fun _ _ _ h h' => ⟨h'.1.trans h.1, h'.2.trans h.2⟩⟩

theorem loadSo_sameObjs (env : LdEnv) (fuel : ℕ) (path : Bytes) : Along SameObjs (loadSo env fuel path) :=
  along_loadSo (fun _ _ _ => .modify fun _ => ⟨rfl, rfl⟩) (fun _ => .modify fun _ => ⟨rfl, rfl⟩) env fuel path

theorem dynEntry_path (obj : LoadedObj) (tag v : ℕ) : (obj.dynEntry tag v).path = obj.path := by
  unfold LoadedObj.dynEntry
  split <;> rfl

/-- The path of the new library. -/
theorem loadSo_path (env : LdEnv) (fuel : ℕ) (path : Bytes) :
    Prog.Returns (fun r => ∀ o, r = some o → o.path = path.take 127) (loadSo env fuel path) := by
  have hentries : ∀ (m : UMem) (k d : ℕ) (obj : LoadedObj),
      Prog.Returns (fun o => o.path = obj.path) (parseEntries m k d obj) := by
    intro m k
    induction k with
    | zero => exact fun d obj => .runsOn
    | succ k ih => exact fun d obj => .ite (.pure rfl) (dynEntry_path obj _ _ ▸ ih _ _)
  have hparse : ∀ obj, Prog.Returns (fun o => o.path = obj.path) (parseDynamic fuel obj) := fun obj =>
    .seq fun s => .bind (hentries _ _ _ _) fun o ho => .ite (.pure ho) (.pure ho)
  have hnone : Prog.Returns (fun r => ∀ o, r = some o → o.path = path.take 127)
      (pure none : Ld (Option LoadedObj)) := .pure fun o h => nomatch h
  unfold loadSo
  split
  · exact hnone
  · refine .ite hnone (.seq fun s => .ite hnone (.seq fun _ => .seq fun _ => .seq fun ok => ?_))
    refine .ite hnone (.ite hnone (.bind (hparse _) fun obj hobj => .pure fun o h => ?_))
    cases h
    exact hobj

theorem baseName_libPath (hslash : 47 ∉ n) (hlen : n.length < 123) : baseName (libPath n) = n := by
  have htake : libPath n = [47, 108, 105, 98, 47] ++ n := List.take_of_length_le (by simp; omega)
  rw [htake, baseName, List.reverse_append, List.takeWhile_append_of_pos]
  · simp
  · intro c hc
    rw [bne_iff_ne]
    rintro rfl
    exact hslash (List.mem_reverse.1 hc)

theorem cstr_eq {p : ℕ} (h : s.mem.strEq p n = true) (hfuel : n.length < fuel) : cstr fuel p s = .ok n s := by
  induction n generalizing p fuel with
  | nil =>
      obtain ⟨fuel, rfl⟩ := Nat.exists_eq_add_of_lt hfuel
      rw [UMem.strEq, beq_iff_eq] at h
      simp [cstr, h]
  | cons c cs ih =>
      obtain ⟨fuel, rfl⟩ := Nat.exists_eq_add_of_lt hfuel
      rw [UMem.strEq, Bool.and_eq_true, Bool.and_eq_true, bne_iff_ne, beq_iff_eq] at h
      obtain ⟨⟨hc, hp⟩, htail⟩ := h
      rw [cstr, bind_apply, get_apply, Result.andThen_ok]
      simp only [hp, hc, if_false]
      rw [bind_apply, ih htail (by rw [List.length_cons]; omega)]
      rfl

/-! ### The graph -/

/-- The entries of a dynamic section from an address on: the name of a library for
`DT_NEEDED`, none for other entries. -/
def readsFrom (m : UMem) (strtab : ℕ) : ℕ → List (Option Bytes) → Bool
  | d, [] => m.read d 8 == 0
  | d, none :: l => m.read d 8 != 0 && m.read d 8 != 1 && readsFrom m strtab (d + 16) l
  | d, some n :: l => m.read d 8 == 1 && m.strEq (strtab + m.read (d + 8) 8) n && readsFrom m strtab (d + 16) l

/-- The entries of the dynamic section of an object. -/
def LoadedObj.reads (o : LoadedObj) (m : UMem) (l : List (Option Bytes)) : Bool :=
  if o.dyn = 0 ∨ o.strtab = 0 then l.isEmpty else readsFrom m o.strtab o.dyn l

/-- **The libraries that are needed**: by the main program, or by one that is needed. -/
inductive Needed (sections : Option Bytes → List (Option Bytes)) : Bytes → Prop
  | main {n : Bytes} : some n ∈ sections none → Needed sections n
  | lib {n n' : Bytes} : Needed sections n → some n' ∈ sections (some n) → Needed sections n'

/-- The states between the loads of libraries of a set, in any order. -/
inductive Loading (env : LdEnv) (R : Finset Bytes) (s₀ : LdState) : LdState → Prop
  | start : Loading env R s₀ s₀
  | load {s s' : LdState} {n : Bytes} {fuel : ℕ} {o : LoadedObj} : Loading env R s₀ s → n ∈ R →
      libAlreadyLoaded s n = false → s.libs.length < maxLibs → loadSo env fuel (libPath n) s = .ok (some o) s' →
      Loading env R s₀ { s' with libs := s'.libs ++ [o] }

/-- **A graph of libraries that load.**  The dynamic sections are those of the graph, also
when other libraries have been loaded; the finite set is what can be reached. -/
structure LibGraph (env : LdEnv) (s₀ : LdState) (sections : Option Bytes → List (Option Bytes)) (R : Finset Bytes) :
    Prop where
  noLibs : s₀.libs = []
  needed : ∀ n, n ∈ R ↔ Needed sections n
  names : ∀ n ∈ R, 47 ∉ n ∧ n.length < 123
  main : ∀ s, Loading env R s₀ s → s₀.main.reads s.mem (sections none) = true
  libs : ∀ s, Loading env R s₀ s → ∀ o ∈ s.libs, ∀ n ∈ R, o.path = libPath n → o.reads s.mem (sections (some n)) = true
  loads : ∀ s, Loading env R s₀ s → s.libs.length < maxLibs → ∀ n ∈ R, libAlreadyLoaded s n = false →
    ∃ fuel o s', loadSo env fuel (libPath n) s = .ok (some o) s'

/-! ### The walk -/

variable {R : Finset Bytes} {sections : Option Bytes → List (Option Bytes)} {names names' : List Bytes}
  {l : List (Option Bytes)} {d : ℕ}

/-- The libraries with these names have been loaded. -/
structure Walked (env : LdEnv) (R : Finset Bytes) (s₀ s : LdState) (names : List Bytes) : Prop where
  loading : Loading env R s₀ s
  paths : s.libs.map (·.path) = names.map libPath
  nodup : names.Nodup
  mem : ∀ n ∈ names, n ∈ R

theorem Walked.length (h : Walked env R s₀ s names) : s.libs.length = names.length := by
  have := congrArg List.length h.paths
  rwa [List.length_map, List.length_map] at this

/-- `lib_already_loaded` finds the libraries by their names. -/
theorem Walked.alreadyLoaded (hg : LibGraph env s₀ sections R) (h : Walked env R s₀ s names) (hn : n ∈ R) :
    libAlreadyLoaded s n = decide (n ∈ names) := by
  have hany : libAlreadyLoaded s n = (names.map libPath).any (fun p => baseName p == n) := by
    rw [← h.paths, List.any_map]
    rfl
  rw [hany, List.any_map, Bool.eq_iff_iff, List.any_eq_true, decide_eq_true_iff]
  constructor
  · rintro ⟨n', hn', heq⟩
    obtain ⟨hslash, hlen⟩ := hg.names n' (h.mem n' hn')
    rw [Function.comp_apply, baseName_libPath hslash hlen, beq_iff_eq] at heq
    exact heq ▸ hn'
  · intro hmem
    obtain ⟨hslash, hlen⟩ := hg.names n hn
    exact ⟨n, hmem, by rw [Function.comp_apply, baseName_libPath hslash hlen, beq_self_eq_true]⟩

theorem Walked.load (hg : LibGraph env s₀ sections R) (h : Walked env R s₀ s names) (hn : n ∈ R) (hnew : n ∉ names)
    (hroom : s.libs.length < maxLibs) (hload : loadSo env fuel (libPath n) s = .ok (some o) s') :
    Walked env R s₀ { s' with libs := s'.libs ++ [o] } (names ++ [n]) ∧ s'.libs = s.libs ∧ o.path = libPath n := by
  have hlibs : s'.libs = s.libs := by
    have := loadSo_sameObjs env fuel (libPath n) s
    rw [hload] at this
    exact this.2
  have hpath : o.path = libPath n := by
    rw [loadSo_path env fuel _ hload o rfl, libPath, List.take_take, Nat.min_self]
  refine ⟨⟨.load h.loading hn ?_ hroom hload, ?_, ?_, ?_⟩, hlibs, hpath⟩
  · rw [h.alreadyLoaded hg hn, decide_eq_false hnew]
  · rw [hlibs, List.map_append, List.map_append, h.paths, List.map_singleton, List.map_singleton, hpath]
  · exact List.nodup_append.2 ⟨h.nodup, List.nodup_singleton n, fun a ha b hb => by
      rw [List.mem_singleton.1 hb]
      exact fun hab => hnew (hab ▸ ha)⟩
  · intro a ha
    rcases List.mem_append.1 ha with ha | ha
    · exact h.mem a ha
    · exact List.mem_singleton.1 ha ▸ hn

section Steps

theorem loadNeededFrom_end (h : readsFrom s.mem o.strtab d [] = true) (fuel : ℕ) :
    loadNeededFrom env (fuel + 1) o d s = .ok () s := by
  rw [readsFrom, beq_iff_eq] at h
  simp only [loadNeededFrom, bind_apply, get_apply, Result.andThen_ok, h, if_true, pure_apply]

theorem loadNeededFrom_other (h : readsFrom s.mem o.strtab d (none :: l) = true) (fuel : ℕ) :
    loadNeededFrom env (fuel + 1) o d s = loadNeededFrom env fuel o (d + 16) s := by
  rw [readsFrom, Bool.and_eq_true, Bool.and_eq_true, bne_iff_ne, bne_iff_ne] at h
  simp only [loadNeededFrom, bind_apply, get_apply, Result.andThen_ok, if_neg h.1.1, ne_eq, h.1.2, not_false_eq_true,
    if_true]

/-- A `DT_NEEDED` entry. -/
theorem loadNeededFrom_needed (h : readsFrom s.mem o.strtab d (some n :: l) = true) (hfuel : n.length < fuel) :
    loadNeededFrom env (fuel + 1) o d s =
      if libAlreadyLoaded s n then loadNeededFrom env fuel o (d + 16) s
      else if maxLibs ≤ s.libs.length then .exit "too many DT_NEEDED" s
      else (loadSo env fuel (libPath n) s).andThen fun r => match r with
        | none => Prog.exit "failed to load library"
        | some o' => addLib o' >>= fun _ => loadNeeded env fuel o' >>= fun _ => loadNeededFrom env fuel o (d + 16) := by
  rw [readsFrom, Bool.and_eq_true, Bool.and_eq_true, beq_iff_eq] at h
  obtain ⟨⟨htag, hname⟩, -⟩ := h
  rw [loadNeededFrom, bind_apply, get_apply, Result.andThen_ok]
  simp only [htag, Nat.one_ne_zero, if_false, ne_eq, not_true_eq_false]
  rw [bind_apply, cstr_eq hname hfuel, Result.andThen_ok, bind_apply, get_apply, Result.andThen_ok]
  split_ifs with hloaded hroom
  · rfl
  · rw [bind_apply, get_apply, Result.andThen_ok, if_pos hroom, exit_apply]
  · rw [bind_apply, get_apply, Result.andThen_ok, if_neg hroom, bind_apply]
    congr 1
    funext r
    cases r with
    | none => rfl
    | some o' =>
        simp only [loadNeeded]
        by_cases hdyn : o'.dyn = 0 ∨ o'.strtab = 0
        · simp only [if_pos hdyn]
          rfl
        · simp only [if_neg hdyn]

end Steps

/-- How a walk over entries ends: what they need has been loaded, with all that the new
libraries need, or there are too many libraries. -/
def WalkEnds (env : LdEnv) (R : Finset Bytes) (s₀ : LdState) (sections : Option Bytes → List (Option Bytes))
    (s : LdState) (names : List Bytes) (l : List (Option Bytes)) (run : ℕ → Prog.Result LdState String Unit) : Prop :=
  (∃ s' names', Walked env R s₀ s' names' ∧ s.libs <+: s'.libs ∧ names ⊆ names' ∧ (∀ n, some n ∈ l → n ∈ names') ∧
    (∀ n ∈ names', n ∉ names → ∀ n', some n' ∈ sections (some n) → n' ∈ names') ∧
      ∃ F, ∀ fuel ≥ F, run fuel = .ok () s') ∨
    (maxLibs < R.card ∧ ∃ s', s'.libs.length = maxLibs ∧ ∃ F, ∀ fuel ≥ F, run fuel = .exit "too many DT_NEEDED" s')

/-- Walks over entries end so, from states with room for `k` libraries. -/
def WalksEnd (env : LdEnv) (R : Finset Bytes) (s₀ : LdState) (sections : Option Bytes → List (Option Bytes)) (k : ℕ) :
    Prop :=
  ∀ (l : List (Option Bytes)) (o : LoadedObj) (d : ℕ) (s : LdState) (names : List Bytes),
    Walked env R s₀ s names → names.length + k = maxLibs → (∀ n, some n ∈ l → n ∈ R) →
    (∀ t, Loading env R s₀ t → s.libs <+: t.libs → readsFrom t.mem o.strtab d l = true) →
    WalkEnds env R s₀ sections s names l fun fuel => loadNeededFrom env fuel o d s

theorem Loading.length_le (h0 : s₀.libs = []) (h : Loading env R s₀ s) : s.libs.length ≤ maxLibs := by
  cases h with
  | start => rw [h0]; exact Nat.zero_le _
  | @load s s' n fuel o _ _ _ hroom hload =>
      have hlibs : s'.libs = s.libs := by
        have := loadSo_sameObjs env fuel (libPath n) s
        rw [hload] at this
        exact this.2
      simp only [hlibs, List.length_append, List.length_singleton]
      exact hroom

theorem WalkEnds.stop (hw : Walked env R s₀ s names) {run : ℕ → Prog.Result LdState String Unit}
    (hrun : ∃ F, ∀ fuel ≥ F, run fuel = .ok () s) : WalkEnds env R s₀ sections s names [] run :=
  Or.inl ⟨s, names, hw, List.prefix_rfl, List.Subset.refl _, fun _ hn => absurd hn List.not_mem_nil,
    fun _ hn hnot => absurd hn hnot, hrun⟩

/-- A run with one more unit of fuel than another one. -/
theorem run_late {run run' : ℕ → Prog.Result LdState String Unit} {r : Prog.Result LdState String Unit} {F₀ F : ℕ}
    (hrun : ∀ fuel ≥ F₀, run' (fuel + 1) = run fuel) (hF : ∀ fuel ≥ F, run fuel = r) :
    ∃ F', ∀ fuel ≥ F', run' fuel = r := by
  refine ⟨max F F₀ + 1, fun fuel hfuel => ?_⟩
  obtain ⟨fuel, rfl⟩ := Nat.exists_eq_add_of_le' (show 1 ≤ fuel by omega)
  rw [hrun fuel (by omega), hF fuel (by omega)]

/-- An entry that is passed over. -/
theorem WalkEnds.cons {e : Option Bytes} {run run' : ℕ → Prog.Result LdState String Unit}
    (h : WalkEnds env R s₀ sections s names l run) (he : ∀ n, e = some n → n ∈ names) (F₀ : ℕ)
    (hrun : ∀ fuel ≥ F₀, run' (fuel + 1) = run fuel) : WalkEnds env R s₀ sections s names (e :: l) run' := by
  rcases h with ⟨s', names', hw, hlibs, hsub, hl, hclosed, F, hF⟩ | ⟨hcard, s', hlen, F, hF⟩
  · refine Or.inl ⟨s', names', hw, hlibs, hsub, fun n hn => ?_, hclosed, run_late hrun hF⟩
    rcases List.mem_cons.1 hn with heq | hn
    · exact hsub (he n heq.symm)
    · exact hl n hn
  · exact Or.inr ⟨hcard, s', hlen, run_late hrun hF⟩

/-- An entry for which a library is loaded: the walk over the library, and then the rest. -/
theorem WalkEnds.load {s₁ : LdState} {run₁ run : ℕ → Prog.Result LdState String Unit} (rest : ℕ → Ld Unit)
    (F₀ : ℕ) (hlibs₁ : s.libs <+: s₁.libs)
    (h₁ : WalkEnds env R s₀ sections s₁ (names ++ [n]) (sections (some n)) run₁)
    (h₂ : ∀ s₂ names₂, Walked env R s₀ s₂ names₂ → s₁.libs <+: s₂.libs → names ++ [n] ⊆ names₂ →
      WalkEnds env R s₀ sections s₂ names₂ l fun fuel => rest fuel s₂)
    (hrun : ∀ fuel ≥ F₀, run (fuel + 1) = (run₁ fuel).andThen fun _ => rest fuel) :
    WalkEnds env R s₀ sections s names (some n :: l) run := by
  rcases h₁ with ⟨s₂, names₂, hw₂, hlibs₂, hsub₂, hneeds, hclosed₂, F₁, hF₁⟩ | ⟨hcard, s₂, hlen, F₁, hF₁⟩
  · rcases h₂ s₂ names₂ hw₂ hlibs₂ hsub₂ with
      ⟨s₃, names₃, hw₃, hlibs₃, hsub₃, hl, hclosed₃, F₂, hF₂⟩ | ⟨hcard, s₃, hlen, F₂, hF₂⟩
    · refine Or.inl ⟨s₃, names₃, hw₃, (hlibs₁.trans hlibs₂).trans hlibs₃, fun a ha => ?_, fun a ha => ?_,
        fun a ha hnew b hb => ?_, run_late hrun (F := max F₁ F₂) fun fuel hfuel => ?_⟩
      · exact hsub₃ (hsub₂ (List.mem_append_left _ ha))
      · rcases List.mem_cons.1 ha with heq | ha
        · cases heq
          exact hsub₃ (hsub₂ (List.mem_append_right _ (List.mem_singleton_self n)))
        · exact hl a ha
      · -- a library is new in this walk: it is `n`, or new in one of the two walks
        by_cases ha₂ : a ∈ names₂
        · refine hsub₃ ?_
          by_cases ha₁ : a ∈ names ++ [n]
          · rcases List.mem_append.1 ha₁ with hold | hn
            · exact absurd hold hnew
            · exact hneeds b (List.mem_singleton.1 hn ▸ hb)
          · exact hclosed₂ a ha₂ ha₁ b hb
        · exact hclosed₃ a ha ha₂ b hb
      · rw [hF₁ fuel (le_trans (le_max_left _ _) hfuel), Result.andThen_ok]
        exact hF₂ fuel (le_trans (le_max_right _ _) hfuel)
    · refine Or.inr ⟨hcard, s₃, hlen, run_late hrun (F := max F₁ F₂) fun fuel hfuel => ?_⟩
      rw [hF₁ fuel (le_trans (le_max_left _ _) hfuel), Result.andThen_ok]
      exact hF₂ fuel (le_trans (le_max_right _ _) hfuel)
  · refine Or.inr ⟨hcard, s₂, hlen, run_late hrun (F := F₁) fun fuel hfuel => ?_⟩
    rw [hF₁ fuel hfuel, Result.andThen_exit]

/-- The walk over an object. -/
theorem WalksEnd.object {k : ℕ} (h : WalksEnd env R s₀ sections k) (hw : Walked env R s₀ s names)
    (hk : names.length + k = maxLibs) (hl : ∀ n, some n ∈ l → n ∈ R)
    (hreads : ∀ t, Loading env R s₀ t → s.libs <+: t.libs → o.reads t.mem l = true) :
    WalkEnds env R s₀ sections s names l fun fuel => loadNeeded env fuel o s := by
  unfold LoadedObj.reads at hreads
  unfold loadNeeded
  split_ifs at hreads ⊢ with hdyn
  · rw [List.isEmpty_iff.1 (hreads s hw.loading List.prefix_rfl)]
    exact .stop hw ⟨0, fun _ _ => rfl⟩
  · exact h l o o.dyn s names hw hk hl hreads

/-- Each library of the graph needs libraries of the graph. -/
theorem LibGraph.mem_of_needs (hg : LibGraph env s₀ sections R) {n' : Bytes} (hn : n ∈ R)
    (h : some n' ∈ sections (some n)) : n' ∈ R := (hg.needed n').2 (.lib ((hg.needed n).1 hn) h)

/-- The walk over a list of entries, given the walks from states with less room. -/
theorem walksEnd_step (hg : LibGraph env s₀ sections R) {k : ℕ} (ih : ∀ j < k, WalksEnd env R s₀ sections j) :
    WalksEnd env R s₀ sections k := by
  intro l o d s names hw hk hl hreads
  induction l generalizing d with
  | nil =>
      refine .stop hw ⟨1, fun fuel hfuel => ?_⟩
      obtain ⟨fuel, rfl⟩ := Nat.exists_eq_add_of_le' hfuel
      exact loadNeededFrom_end (hreads s hw.loading List.prefix_rfl) fuel
  | cons e l ihl =>
      have hhere := hreads s hw.loading List.prefix_rfl
      have hrest : ∀ t, Loading env R s₀ t → s.libs <+: t.libs → readsFrom t.mem o.strtab (d + 16) l = true := by
        intro t ht hlibs
        have := hreads t ht hlibs
        cases e with
        | none => rw [readsFrom, Bool.and_eq_true] at this; exact this.2
        | some n => rw [readsFrom, Bool.and_eq_true] at this; exact this.2
      have hnext := ihl (d + 16) (fun n hn => hl n (List.mem_cons_of_mem _ hn)) hrest
      cases e with
      | none => exact hnext.cons (fun n hn => nomatch hn) 0 fun fuel _ => loadNeededFrom_other hhere fuel
      | some n =>
          have hn : n ∈ R := hl n List.mem_cons_self
          have hloaded := hw.alreadyLoaded hg hn
          by_cases hmem : n ∈ names
          · refine hnext.cons (fun n' hn' => Option.some.inj hn' ▸ hmem) (n.length + 1) fun fuel hfuel => ?_
            rw [loadNeededFrom_needed hhere (by omega), hloaded, decide_eq_true hmem, if_pos rfl]
          rw [decide_eq_false hmem] at hloaded
          by_cases hroom : maxLibs ≤ s.libs.length
          · -- one more library than there is room for
            have hlen := hw.loading.length_le hg.noLibs
            refine Or.inr ⟨?_, s, le_antisymm hlen hroom, n.length + 2, fun fuel hfuel => ?_⟩
            · have hsub : insert n names.toFinset ⊆ R := by
                intro a ha
                rcases Finset.mem_insert.1 ha with rfl | ha
                · exact hn
                · exact hw.mem a (List.mem_toFinset.1 ha)
              have hcard := Finset.card_le_card hsub
              rw [Finset.card_insert_of_notMem (by rwa [List.mem_toFinset]), List.toFinset_card_of_nodup hw.nodup,
                ← hw.length] at hcard
              omega
            · obtain ⟨fuel, rfl⟩ := Nat.exists_eq_add_of_le' (show 1 ≤ fuel by omega)
              simp only
              rw [loadNeededFrom_needed hhere (by omega), hloaded, if_neg Bool.false_ne_true, if_pos hroom]
          obtain ⟨fuel₀, o', s', hload⟩ := hg.loads s hw.loading (not_le.1 hroom) n hn hloaded
          obtain ⟨hw₁, hlibs, hpath⟩ := hw.load hg hn hmem (not_le.1 hroom) hload
          have hlibs₁ : s.libs <+: s'.libs ++ [o'] := hlibs ▸ List.prefix_append _ _
          have hlen := hw.length
          refine WalkEnds.load (fun fuel => loadNeededFrom env fuel o (d + 16)) (max fuel₀ (n.length + 1)) hlibs₁
            ((ih (k - 1) (by omega)).object (o := o') hw₁ ?_ ?_ ?_) ?_ fun fuel hfuel => ?_
          · rw [List.length_append, List.length_singleton]
            omega
          · exact fun n' hn' => hg.mem_of_needs hn hn'
          · intro t ht htlibs
            exact hg.libs t ht o' (htlibs.subset (List.mem_append_right _ (List.mem_singleton_self o'))) n hn hpath
          · intro s₂ names₂ hw₂ hlibs₂ hsub₂
            have hle := (hw₁.nodup.subperm hsub₂).length_le
            have hmax := hw₂.loading.length_le hg.noLibs
            rw [List.length_append, List.length_singleton] at hle
            rw [hw₂.length] at hmax
            exact ih (maxLibs - names₂.length) (by omega) l o (d + 16) s₂ names₂ hw₂ (by omega)
              (fun n hn => hl n (List.mem_cons_of_mem _ hn)) fun t ht htlibs => hrest t ht
                ((hlibs₁.trans hlibs₂).trans htlibs)
          · rw [loadNeededFrom_needed hhere (by omega), hloaded, if_neg Bool.false_ne_true, if_neg hroom,
              loadSo_mono env _ (le_trans (le_max_left _ _) hfuel) hload]
            rfl

/-- **Every walk ends**: by induction on the room that is left. -/
theorem walksEnd (hg : LibGraph env s₀ sections R) (k : ℕ) : WalksEnd env R s₀ sections k := by
  induction k using Nat.strong_induction_on with
  | _ k ih => exact walksEnd_step hg ih

/-- A set of libraries with all that they need has every library that is needed. -/
theorem Needed.mem (hmain : ∀ n, some n ∈ sections none → n ∈ names)
    (hclosed : ∀ n ∈ names, ∀ n', some n' ∈ sections (some n) → n' ∈ names) (h : Needed sections n) : n ∈ names := by
  induction h with
  | main hn => exact hmain _ hn
  | lib _ hn ih => exact hclosed _ ih _ hn

/-- **The closure of `DT_NEEDED`.**  If at most `MAX_LIBS` libraries can be reached,
`load_needed` returns with each of them in `g_libs` once and no other; if there are more, it
ends the process with `g_libs` full. -/
theorem loadNeeded_closure (env : LdEnv) (s₀ : LdState) (sections : Option Bytes → List (Option Bytes))
    (R : Finset Bytes) (hg : LibGraph env s₀ sections R) :
    (R.card ≤ maxLibs → ∃ s, (∃ F, ∀ fuel ≥ F, loadNeeded env fuel s₀.main s₀ = .ok () s) ∧
      (s.libs.map (·.path)).Nodup ∧ ∀ path, path ∈ s.libs.map (·.path) ↔ ∃ n ∈ R, path = libPath n) ∧
    (maxLibs < R.card → ∃ s, (∃ F, ∀ fuel ≥ F, loadNeeded env fuel s₀.main s₀ = .exit "too many DT_NEEDED" s) ∧
      s.libs.length = maxLibs) := by
  have hstart : Walked env R s₀ s₀ [] :=
    ⟨.start, by rw [hg.noLibs]; rfl, List.nodup_nil, fun n hn => absurd hn List.not_mem_nil⟩
  have hwalk := (walksEnd hg maxLibs).object (o := s₀.main) (l := sections none) hstart (by simp)
    (fun n hn => (hg.needed n).2 (.main hn)) fun t ht _ => hg.main t ht
  rcases hwalk with ⟨s, names, hw, -, -, hmain, hclosed, hrun⟩ | ⟨hcard, s, hlen, hrun⟩
  · have hall : ∀ n, n ∈ names ↔ n ∈ R := fun n =>
      ⟨hw.mem n, fun hn => ((hg.needed n).1 hn).mem hmain fun a ha => hclosed a ha List.not_mem_nil⟩
    have hcard : R.card = names.length := by
      rw [← List.toFinset_card_of_nodup hw.nodup]
      congr 1
      ext n
      rw [List.mem_toFinset, hall]
    have hmax := hw.loading.length_le hg.noLibs
    rw [hw.length] at hmax
    refine ⟨fun _ => ⟨s, hrun, ?_, fun path => ?_⟩, fun hmore => absurd hmore (by omega)⟩
    · rw [hw.paths]
      refine hw.nodup.map_on fun a ha b hb hab => ?_
      obtain ⟨hslash, hlen⟩ := hg.names a (hw.mem a ha)
      obtain ⟨hslash', hlen'⟩ := hg.names b (hw.mem b hb)
      rw [← baseName_libPath hslash hlen, hab, baseName_libPath hslash' hlen']
    · rw [hw.paths, List.mem_map]
      constructor
      · rintro ⟨n, hn, rfl⟩
        exact ⟨n, (hall n).1 hn, rfl⟩
      · rintro ⟨n, hn, rfl⟩
        exact ⟨n, (hall n).2 hn, rfl⟩
  · exact ⟨fun hfew => absurd hfew (by omega), fun _ => ⟨s, hrun, hlen⟩⟩

/-! ### A library that needs itself -/

/-- The file `/lib/a`: one segment, with a dynamic section at `0x100` that names `a`. -/
def loopFile : Image :=
  ⟨UMem.ofWords [(0, 0x464C457F), (16, 3), (32, 64), (56, 2), (64, 1), (96, 0x200), (104, 0x200), (120, 2),
    (136, 0x100), (0x100, 1), (0x108, 1), (0x110, 5), (0x118, 0x180), (0x180, 0x6100)], 0x200⟩

/-- Only this file can be opened. -/
def loopEnv : LdEnv := ⟨fun path => if path = libPath [97] then some loopFile else none, fun _ _ => true, fun _ => 0⟩

/-- A program that needs `a`. -/
def loopStart : LdState :=
  ⟨UMem.ofWords [(0x300, 1), (0x308, 1), (0x500, 0x6100)],
    { newObj 0 0 [109, 97, 105, 110] 0x300 with strtab := 0x500 }, [], dynRegionStart, []⟩

/-- The dynamic sections: both the program and `a` need `a`. -/
def loopSections : Option Bytes → List (Option Bytes)
  | none => [some [97]]
  | some n => if n = [97] then [some [97], none] else []

/-- What `load_so` makes of the file. -/
def loopLoad : Option (LoadedObj × LdState) :=
  match loadSo loopEnv 5 (libPath [97]) loopStart with
  | .ok (some o) s => some (o, s)
  | _ => none

theorem loopLoad_some {s : LdState} (h : loopLoad = some (o, s)) :
    loadSo loopEnv 5 (libPath [97]) loopStart = .ok (some o) s := by
  unfold loopLoad at h
  split at h
  · rename_i hload
    cases h
    exact hload
  · cases h

/-- The only other state of this graph. -/
theorem loop_loading {t : LdState} (hload : loopLoad = some (o, t)) (hpath : baseName o.path = [97])
    (h : Loading loopEnv {[97]} loopStart s) : s = loopStart ∨ s = { t with libs := t.libs ++ [o] } := by
  induction h with
  | start => exact Or.inl rfl
  | load _ hn hnew _ hso ih =>
      rw [Finset.mem_singleton] at hn
      subst hn
      rcases ih with rfl | rfl
      · obtain ⟨ho, ht⟩ := loadSo_unique (loopLoad_some hload) hso
        cases ho
        exact Or.inr (by rw [ht])
      · rw [libAlreadyLoaded, List.any_append, Bool.or_eq_false_iff] at hnew
        simp [hpath] at hnew

theorem loop_needed (n : Bytes) : n ∈ ({[97]} : Finset Bytes) ↔ Needed loopSections n := by
  rw [Finset.mem_singleton]
  constructor
  · rintro rfl
    exact .main (List.mem_singleton_self _)
  · intro h
    induction h with
    | main hn => exact Option.some.inj (List.mem_singleton.1 hn)
    | lib _ hn ih =>
        subst ih
        simpa [loopSections] using hn

/-- The program and its library make up a graph. -/
theorem loop_libGraph : LibGraph loopEnv loopStart loopSections {[97]} := by
  have htest : (loopLoad.any fun p => decide (baseName p.1.path = [97] ∧ p.2.libs.length = 0 ∧
      loopStart.main.reads p.2.mem (loopSections none) = true ∧ p.1.reads p.2.mem (loopSections (some [97])) = true)) =
      true := by
    decide +kernel
  obtain ⟨⟨o, t⟩, hload, htest⟩ := (Option.any_eq_true _ _).1 htest
  obtain ⟨hpath, hlibs, hmain, hlib⟩ := of_decide_eq_true htest
  replace hlibs : t.libs = [] := List.length_eq_zero_iff.1 hlibs
  refine ⟨rfl, loop_needed, ?_, fun s hs => ?_, fun s hs o' ho' n hn _ => ?_, fun s hs _ n hn hnew => ?_⟩
  · intro n hn
    rw [Finset.mem_singleton.1 hn]
    decide
  · rcases loop_loading hload hpath hs with rfl | rfl
    · decide +kernel
    · exact hmain
  · rw [Finset.mem_singleton.1 hn]
    rcases loop_loading hload hpath hs with rfl | rfl
    · exact absurd ho' List.not_mem_nil
    · simp only [hlibs, List.nil_append, List.mem_singleton] at ho'
      rw [ho']
      exact hlib
  · rw [Finset.mem_singleton] at hn
    subst hn
    rcases loop_loading hload hpath hs with rfl | rfl
    · exact ⟨5, o, t, loopLoad_some hload⟩
    · rw [libAlreadyLoaded, List.any_append, Bool.or_eq_false_iff] at hnew
      simp [hpath] at hnew

/-- The hypothesis of `loadNeeded_closure` is satisfiable: a library that needs itself is
loaded once. -/
theorem loadNeeded_closure_loop :
    ∃ s, (∃ F, ∀ fuel ≥ F, loadNeeded loopEnv fuel loopStart.main loopStart = .ok () s) ∧
      (s.libs.map (·.path)).Nodup ∧ libPath [97] ∈ s.libs.map (·.path) := by
  obtain ⟨s, hrun, hnodup, hall⟩ :=
    (loadNeeded_closure loopEnv loopStart loopSections {[97]} loop_libGraph).1 (by decide)
  exact ⟨s, hrun, hnodup, (hall _).2 ⟨[97], Finset.mem_singleton_self _, rfl⟩⟩

end LighthOS
