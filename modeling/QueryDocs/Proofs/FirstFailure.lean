import QueryDocs.Files.Store
import QueryDocs.Proofs.Import.Files

/-! # The first failure of an expansion

Expansion follows import lines depth first, in the order of the lines. Routes are ordered in the same
way by the numbers of their lines: a route comes before those that go on from its end, and these come
before the routes over later lines. An expansion fails exactly if some route fails, and for the reason
of the first one; so a cycle is told only where a file asks for itself, and no cycle stays untold
(`FileStore.expand_first_failure`). -/

namespace QueryDocs.FileStore

open QueryDocs.Text

/-- A route along some lines ends at a path that cannot be opened. -/
def FailsAt (store : FileStore) (chain : List String) (path : String) (is : List Nat)
    (e : ExpansionError) : Prop :=
  ∃ chain' path', store.Route chain path is chain' path' ∧ store.Fails chain' path' e

/-- A route fails, and none before it does. -/
def FirstFailure (store : FileStore) (chain : List String) (path : String) (is : List Nat)
    (e : ExpansionError) : Prop :=
  store.FailsAt chain path is e ∧ ∀ js < is, ∀ e', ¬ store.FailsAt chain path js e'

section Failure
variable {store : FileStore} {chain : List String} {path file text next : String} {i : Nat}
  {is : List Nat} {e e' : ExpansionError} {out : List Char}

theorem FailsAt.unique (h : store.FailsAt chain path is e) (h' : store.FailsAt chain path is e') :
    e = e' := by
  obtain ⟨chain', path', hroute, hfails⟩ := h
  obtain ⟨chain'', path'', hroute', hfails'⟩ := h'
  obtain ⟨rfl, rfl⟩ := hroute.unique hroute'
  exact hfails.unique hfails'

theorem FirstFailure.unique {js : List Nat} (h : store.FirstFailure chain path is e)
    (h' : store.FirstFailure chain path js e') : e = e' := by
  rcases lt_trichotomy is js with hlt | rfl | hlt
  · exact absurd h.1 (h'.2 is hlt e)
  · exact h.1.unique h'.1
  · exact absurd h'.1 (h.2 js hlt e')

theorem Opens.failsAt_iff (hopen : store.Opens chain path file text) :
    store.FailsAt chain path is e ↔ ∃ i next js, is = i :: js ∧ AsksAt file text i next ∧
      store.FailsAt (file :: chain) next js e := by
  constructor
  · rintro ⟨chain', path', hroute, hfails⟩
    cases hroute with
    | here => exact absurd hfails hopen.not_fails
    | @step _ _ _ file' text' next _ i js hopen' hasks h =>
      obtain ⟨rfl, rfl⟩ := hopen.unique hopen'
      exact ⟨i, next, js, rfl, hasks, chain', path', h, hfails⟩
  · rintro ⟨i, next, js, rfl, hasks, chain', path', h, hfails⟩
    exact ⟨chain', path', .step hopen hasks h, hfails⟩

/-- **Where an expansion succeeds no route fails.** -/
theorem not_failsAt_of_expandOn (h : store.expandOn chain path = .ok out) :
    ¬ store.FailsAt chain path is e := by
  induction is generalizing chain path out with
  | nil =>
    obtain ⟨file, text, outs, hopen, -⟩ := expandOn_eq_ok.mp h
    rw [hopen.failsAt_iff]
    rintro ⟨i, next, js, ⟨⟩, -⟩
  | cons i is ih =>
    obtain ⟨file, text, outs, hopen, -⟩ := expandOn_eq_ok.mp h
    rw [hopen.failsAt_iff]
    rintro ⟨i, next, js, ⟨⟩, hasks, hfails⟩
    obtain ⟨o, ho⟩ := exists_expandOn_of_asks h hopen hasks
    exact ih ho hfails

/-- **Where an expansion fails, a first route does, for the same reason.** -/
theorem exists_firstFailure (h : store.expandOn chain path = .error e) :
    ∃ is, store.FirstFailure chain path is e := by
  -- each file that is opened leaves fewer files that are not on the chain
  induction hn : store.remaining chain using Nat.strong_induction_on generalizing chain path with
  | _ n ih =>
    subst hn
    rcases expandOn_eq_error h with hfails | ⟨file, text, i, next, hopen, hasks, he, hbefore⟩
    · exact ⟨[], ⟨chain, path, .here _ _, hfails⟩, fun js hjs => absurd hjs (List.not_lt_nil js)⟩
    · have hlt := remaining_lt (store.mem_known hopen.resolve) hopen.fresh
      obtain ⟨is, hfails, hfirst⟩ := ih _ hlt he rfl
      refine ⟨i :: is, hopen.failsAt_iff.mpr ⟨i, next, is, rfl, hasks, hfails⟩, fun js hjs e' hjs' => ?_⟩
      obtain ⟨j, next', js, rfl, hasks', hfails'⟩ := hopen.failsAt_iff.mp hjs'
      rcases List.cons_lt_cons_iff.mp hjs with hlt | ⟨rfl, hlt⟩
      · obtain ⟨out, hout⟩ := hbefore j hlt next' hasks'
        exact not_failsAt_of_expandOn hout hfails'
      · obtain rfl := hasks.unique hasks'
        exact hfirst js hlt e' hfails'

theorem expandOn_eq_error_iff :
    store.expandOn chain path = .error e ↔ ∃ is, store.FirstFailure chain path is e := by
  refine ⟨exists_firstFailure, fun ⟨is, hfirst⟩ => ?_⟩
  cases h : store.expandOn chain path with
  | ok out => exact absurd hfirst.1 (not_failsAt_of_expandOn h)
  | error e' =>
    obtain ⟨js, hfirst'⟩ := exists_firstFailure h
    rw [hfirst.unique hfirst']

theorem expandOn_ok_iff :
    (∃ out, store.expandOn chain path = .ok out) ↔ ∀ is e, ¬ store.FailsAt chain path is e := by
  refine ⟨fun ⟨out, h⟩ is e => not_failsAt_of_expandOn h, fun hnone => ?_⟩
  cases h : store.expandOn chain path with
  | ok out => exact ⟨out, rfl⟩
  | error e =>
    obtain ⟨is, hfirst⟩ := exists_firstFailure h
    exact absurd hfirst.1 (hnone is e)

/-! ### Cycles -/

theorem transGen_of_cycle {path' : String} (h : store.expandOn [] path = .error (.cycle path')) :
    ∃ file, store.Reaches path file ∧ Relation.TransGen store.Imports file file := by
  obtain ⟨is, ⟨chain', path'', hroute, hfails⟩, -⟩ := exists_firstFailure h
  cases hfails with
  | @cycle file hresolve hmem =>
    exact ⟨file, hroute.reaches hresolve, hroute.transGen (by simp) file hmem file hresolve⟩

/-- If no route fails and a file goes on to files that ask for themselves, there are routes of any
length. -/
theorem exists_route_of_transGen (hnone : ∀ is e, ¬ store.FailsAt [] path is e)
    (hreach : store.Reaches path file) (hcycle : Relation.TransGen store.Imports file file) (n : Nat) :
    ∃ is chain' path', is.length = n ∧ store.Route [] path is chain' path' ∧
      ∃ file', store.resolve path' = .ok file' ∧ Relation.TransGen store.Imports file' file := by
  induction n with
  | zero =>
    obtain ⟨root, hroot, hreach⟩ := hreach
    exact ⟨[], [], path, rfl, .here _ _, root, hroot, .trans_right hreach hcycle⟩
  | succ n ih =>
    obtain ⟨is, chain', path', hlen, hroute, file', hresolve, htrans⟩ := ih
    rcases store.opens_or_fails chain' path' with ⟨file'', text, hopen⟩ | ⟨e, hfails⟩
    · cases hresolve.symm.trans hopen.resolve
      -- the first line on the way to the file
      obtain ⟨g, himports, hrest⟩ := Relation.TransGen.head'_iff.mp htrans
      obtain ⟨text', i, next, hread, hasks, hnext⟩ := himports
      cases hread.symm.trans hopen.read
      refine ⟨is ++ [i], _, next, by simp [hlen], hroute.snoc hopen hasks, g, hnext, ?_⟩
      exact .trans_right hrest hcycle
    · exact absurd ⟨chain', path', hroute, hfails⟩ (hnone is e)

theorem not_transGen_of_expandOn (h : store.expandOn [] path = .ok out)
    (hreach : store.Reaches path file) : ¬ Relation.TransGen store.Imports file file := by
  intro hcycle
  obtain ⟨is, chain', path', hlen, hroute, -⟩ :=
    exists_route_of_transGen (expandOn_ok_iff.mp ⟨out, h⟩) hreach hcycle (store.known.length + 1)
  have := hroute.length_le
  omega

end Failure

/-- **An expansion comes to an end and fails exactly where the first failing route does.** No route has
more lines than there are files. The error of an expansion is that of the first route that fails, in
the order of a walk that goes over the lines of a file one after the other and from each line first to
the file that it asks for; without such a route there is a text. If a cycle is told, some file on the
way asks for itself, directly or not; if there is a text, none does. -/
theorem expand_first_failure (store : FileStore) (path : String) :
    (∀ is chain path', store.Route [] path is chain path' → is.length ≤ store.known.length) ∧
    (∀ e, store.expand path = .error e ↔ ∃ is, store.FirstFailure [] path is e) ∧
    ((∃ text, store.expand path = .ok text) ↔ ∀ is e, ¬ store.FailsAt [] path is e) ∧
    (∀ path', store.expand path = .error (.cycle path') →
      ∃ file, store.Reaches path file ∧ Relation.TransGen store.Imports file file) ∧
    ((∃ text, store.expand path = .ok text) →
      ∀ file, store.Reaches path file → ¬ Relation.TransGen store.Imports file file) := by
  have hok : (∃ text, store.expand path = .ok text) ↔ ∃ out, store.expandOn [] path = .ok out := by
    simp [expand, map_eq_ok]
  refine ⟨fun is chain path' h => h.length_le, fun e => ?_, ?_, fun path' h => ?_, fun h file => ?_⟩
  · rw [expand, map_eq_error, expandOn_eq_error_iff]
  · rw [hok, expandOn_ok_iff]
  · exact transGen_of_cycle (map_eq_error.mp h)
  · obtain ⟨out, hout⟩ := hok.mp h
    exact not_transGen_of_expandOn hout

/-- A file that is asked for twice is expanded twice; the file that asks for its own importer is not, and
the missing file behind it is not looked for. -/
theorem expand_first_failure_shared :
    ∃ is, (Snapshot.store ⟨[("/a", .ok "/a"), ("/b", .ok "/b"), ("/c", .ok "/c")],
        [("/a", .ok "#import \"b\"\n#import \"c\""), ("/b", .ok "type B"),
          ("/c", .ok "#import \"b\"\n#import \"a\"\n#import \"d\"\n")]⟩).FirstFailure [] "/a" is
      (.cycle "/a") := by
  obtain ⟨-, herror, -⟩ := expand_first_failure (Snapshot.store
    ⟨[("/a", .ok "/a"), ("/b", .ok "/b"), ("/c", .ok "/c")],
      [("/a", .ok "#import \"b\"\n#import \"c\""), ("/b", .ok "type B"),
        ("/c", .ok "#import \"b\"\n#import \"a\"\n#import \"d\"\n")]⟩) "/a"
  exact (herror _).mp (by decide +kernel)

end QueryDocs.FileStore
