import ModelicaFold.Proofs.Memory.Transparency

/-!
# Variables that share a key

The value of a variable is remembered under a text: the name of its frame, a dot and its own name.
From this text both can be read back if the names of variables have no dots, and it tells the
variables of an environment apart if its frames have different names
(`Env.keysDistinct_of_names`). A variable is then read as if no other one had been read before
(`Setting.reads_apart`). The name of a variable may contain a dot, though, and then two variables
can share a key, and the one is read as the other (`Setting.reads_aliased`).
-/

namespace ModelicaFold

/-! ## Keys as texts -/

/-- What precedes the last dot of a text and what follows it can be read back. -/
theorem dotted_inj {s s' x x' : List Char} (hx : '.' ∉ x) (hx' : '.' ∉ x')
    (h : s ++ '.' :: x = s' ++ '.' :: x') : s = s' ∧ x = x' := by
  have htail : ∀ {s x : List Char}, '.' ∉ x →
      (s ++ '.' :: x).reverse.takeWhile (· != '.') = x.reverse := by
    intro s x hx
    have hdotless : ∀ c ∈ x.reverse, (c != '.') = true := fun c hc => by
      simpa using ne_of_mem_of_not_mem (List.mem_reverse.mp hc) hx
    rw [List.reverse_append, List.reverse_cons, List.append_assoc,
      List.takeWhile_append_of_pos hdotless]
    simp
  have hreverse : x.reverse = x'.reverse := by rw [← htail hx, h, htail hx']
  obtain rfl := List.reverse_injective hreverse
  exact ⟨List.append_cancel_right h, rfl⟩

/-- Frame and name can be read back from a key if names have no dots. -/
theorem Context.key_inj {scope scope' name name' : String} (hname : '.' ∉ name.toList)
    (hname' : '.' ∉ name'.toList) (h : Context.key scope name = Context.key scope' name') :
    scope = scope' ∧ name = name' := by
  have hdot : ∀ s x : String, (s ++ "." ++ x).toList = s.toList ++ '.' :: x.toList := by
    intro s x
    simp [String.toList_append]
  have hmem : ∀ s x : String, '.' ∈ (s ++ "." ++ x).toList := by
    intro s x
    rw [hdot]
    exact List.mem_append_right _ List.mem_cons_self
  unfold Context.key at h
  split at h <;> split at h
  · rename_i hscope hscope'
    exact ⟨hscope.trans hscope'.symm, h⟩
  · exact absurd (h ▸ hmem scope' name') hname
  · exact absurd (h ▸ hmem scope name) hname'
  · have hlists := congrArg String.toList h
    rw [hdot, hdot] at hlists
    obtain ⟨hscope, hnames⟩ := dotted_inj hname hname' hlists
    exact ⟨String.toList_injective hscope, String.toList_injective hnames⟩

namespace Env

/-- A frame is told from the others by its name if these differ. -/
theorem eq_of_name_eq {start scope scope' : Env} (hnames : (start.frames.map Frame.name).Nodup)
    (h : scope.frames <:+ start.frames) (h' : scope'.frames <:+ start.frames)
    (hname : scope.innermost.name = scope'.innermost.name) : scope = scope' := by
  have hinner : ∀ {inner outer : Env}, outer.frames <:+ inner.frames →
      inner.frames <:+ start.frames → outer.innermost.name = inner.innermost.name →
      outer = inner := by
    intro inner outer hsuffix hinner hname
    rcases List.suffix_cons_iff.mp hsuffix with heq | hmore
    · exact frames_injective heq
    · have hnodup := hnames.sublist (hinner.sublist.map Frame.name)
      have hmem : outer.innermost ∈ inner.outer := hmore.subset List.mem_cons_self
      have hnotin : inner.innermost.name ∉ inner.outer.map Frame.name :=
        (List.nodup_cons.mp hnodup).1
      exact absurd (hname ▸ List.mem_map_of_mem hmem) hnotin
  rcases List.suffix_or_suffix_of_suffix h h' with hsuffix | hsuffix
  · exact hinner hsuffix h' hname
  · exact (hinner hsuffix h hname.symm).symm

/-- No two variables share a key if the frames have different names and the names of variables no
dots. -/
theorem keysDistinct_of_names {start : Env} (hframes : (start.frames.map Frame.name).Nodup)
    (hvars : ∀ frame ∈ start.frames, ∀ binding ∈ frame.vars, '.' ∉ binding.1.toList) :
    start.KeysDistinct := by
  have hdots : ∀ {scope name e}, start.Declares scope name e → '.' ∉ name.toList := by
    intro scope name e hdecl
    obtain ⟨declared, _, _, hlookup, -⟩ := hdecl.bound
    have hframe := hdecl.seen.subset (List.mem_cons_self (l := scope.outer))
    exact hvars _ hframe (name, declared) (mem_of_lookup_eq_some hlookup)
  intro scope scope' name name' e e' hdecl hdecl' hkey
  obtain ⟨hscope, rfl⟩ := Context.key_inj (hdots hdecl) (hdots hdecl') hkey
  exact ⟨eq_of_name_eq hframes hdecl.seen hdecl'.seen hscope, rfl⟩

end Env

/-! ## Reading one variable after another -/

namespace Setting

/-- Reads a variable, or what a reference selects from it. -/
def read (σ : Setting) (reporting : Reporting) (r : Reference) : EvalM Value :=
  σ.evaluator.evaluateReference ⟨σ.env, σ.mode, reporting⟩ r

/-- Reading one variable never changes the value read for another: what the second reference is
read as where nothing is remembered, it is read as in the context that reading the first one
leaves. No two variables may share a key. -/
theorem reads_apart (σ : Setting) (hkeys : σ.env.KeysDistinct)
    (hcall : σ.evaluator.ExecutesBodies) {functions : FunctionTable} {first second : Reference}
    {reporting reporting' : Reporting} {log log' : Log} {v w : Value} {C D : Context}
    (hfirst : (σ.read reporting first (.ofFunctions functions) log).1 = .ok (v, C))
    (hsecond : (σ.read reporting' second (.ofFunctions functions) log').1 = .ok (w, D))
    (log'' : Log) :
    ∃ D', (σ.read reporting' second C log'').1 = .ok (w, D') ∧ C.Within D' ∧ D.Within D' := by
  have hasks : ∀ reporting r, σ.Asks (.reference ⟨σ.env, σ.mode, reporting⟩ r) :=
    fun _ _ => ⟨rfl, rfl⟩
  obtain ⟨hfaithful, hwithin⟩ :=
    (faithful_ofFunctions functions).run hkeys hcall (hasks reporting first) hfirst
  obtain rfl : functions = C.functions := hwithin.functions
  have hfollows := hfaithful.followsStart hkeys hcall (hasks reporting' second) log' log''
  obtain ⟨_, D', hrun, -, hD, -⟩ := (hfollows.ok hsecond).2.exists
  exact ⟨D', hrun, (hfaithful.run hkeys hcall (hasks reporting' second) hrun).2, hD⟩

/-- Two variables with the values 1 and 2, one in the unnamed frame and one in the frame `M` inside
of it. -/
def bindsTwo (outer inner : String) : Setting where
  evaluator := .alone ⟨8, .none⟩
  env :=
    ((Env.empty.define outer ⟨.integer, .parameter, .expression (.integer 1) .parameter none⟩).push
      "M" .classScope).define inner ⟨.integer, .parameter, .expression (.integer 2) .parameter none⟩
  mode := .explicit

/-- Where the variables are called `x` and `y` they do not share a key. -/
theorem reads_apart_nested :
    ∃ D', ((bindsTwo "x" "y").read .silent [.mk "y" []] ⟨[("x", .integer 1)], .empty⟩
      (.start .standard)).1 = .ok (.integer 2, D') := by
  have hkeys : (bindsTwo "x" "y").env.KeysDistinct :=
    Env.keysDistinct_of_names (by decide) (by decide)
  have hfirst : ((bindsTwo "x" "y").read .silent [.mk "x" []] .empty (.start .standard)).1
      = .ok (.integer 1, ⟨[("x", .integer 1)], .empty⟩) := rfl
  have hsecond : ((bindsTwo "x" "y").read .silent [.mk "y" []] .empty (.start .standard)).1
      = .ok (.integer 2, ⟨[("M.y", .integer 2)], .empty⟩) := rfl
  obtain ⟨D', hrun, -⟩ := reads_apart (bindsTwo "x" "y") hkeys (executesBodies_alone _) hfirst
    hsecond (.start .standard)
  exact ⟨D', hrun⟩

/-- Where the variables are called `M.x` and `x` they share the key `M.x`: after the outer one has
been read, the inner one is read as 1. -/
theorem reads_aliased :
    ((bindsTwo "M.x" "x").env.lookup "M.x").map (·.scope) = some ""
      ∧ ((bindsTwo "M.x" "x").env.lookup "x").map (·.scope) = some "M"
      ∧ ∃ C D D', ((bindsTwo "M.x" "x").read .silent [.mk "M" [], .mk "x" []] .empty
          (.start .standard)).1 = .ok (.integer 1, C)
        ∧ ((bindsTwo "M.x" "x").read .silent [.mk "x" []] .empty (.start .standard)).1
          = .ok (.integer 2, D)
        ∧ ((bindsTwo "M.x" "x").read .silent [.mk "x" []] C (.start .standard)).1
          = .ok (.integer 1, D') :=
  ⟨rfl, rfl, _, _, _, rfl, rfl, rfl⟩

end Setting

end ModelicaFold
