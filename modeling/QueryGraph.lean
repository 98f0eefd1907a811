import QueryGraph.BitSet.Lemmas
import QueryGraph.Planning
import QueryGraph.Forest
import QueryGraph.Proofs.Conflict.Rules
import QueryGraph.Proofs.Conflict.Folding
import QueryGraph.Proofs.Meaning.Truth
import QueryGraph.Proofs.Meaning.Restriction
import QueryGraph.Proofs.Rows.Filters
import QueryGraph.Proofs.Meaning.Trees
import QueryGraph.Proofs.Pushdown.Joins
import QueryGraph.Proofs.Pushdown.Soundness
import QueryGraph.Proofs.Meaning.Dialect
import QueryGraph.Proofs.Meaning.NullRejection
import QueryGraph.Proofs.Rows.Exchange
import QueryGraph.Proofs.Reordering.Verdicts
import QueryGraph.Proofs.Reordering.Parts
import QueryGraph.Proofs.Reordering.Fitting
import QueryGraph.Proofs.Reordering.Separation
import QueryGraph.Proofs.Reordering.Bare
import QueryGraph.Proofs.Reordering.Plans
import QueryGraph.Proofs.Reordering.Assembly
import QueryGraph.Proofs.Reordering.Soundness
import QueryGraph.Proofs.Reordering.Spines
import QueryGraph.Proofs.Reordering.Exactness
import QueryGraph.Proofs.Reordering.Exchanges
import QueryGraph.Proofs.Eligibility.Closure
import QueryGraph.Proofs.Passes.Tables
import QueryGraph.Proofs.Passes.Outline
import QueryGraph.Proofs.Passes.Reading
import QueryGraph.Proofs.Planning.Lookups
import QueryGraph.Proofs.Planning.Source
import QueryGraph.Proofs.Planning.Telling
import QueryGraph.Proofs.Planning.Stages
import QueryGraph.Proofs.Planning.Graph
import QueryGraph.Proofs.Planning.Remaining
import QueryGraph.Proofs.Planning.Predicates
import QueryGraph.Proofs.Planning.Endpoints
import QueryGraph.Proofs.Hypergraph.Adjacency
import QueryGraph.Proofs.Hypergraph.Mirroring
import QueryGraph.Proofs.Relabeling.Basic
import QueryGraph.Proofs.Relabeling.Conditions
import QueryGraph.Proofs.Relabeling.Trees
import QueryGraph.Proofs.Relabeling.Graphs
import QueryGraph.Proofs.Relabeling.Agreement
import QueryGraph.Proofs.Planning.TableNumbers
import QueryGraph.Proofs.Relabeling.Canonical
import QueryGraph.Proofs.Passes.Shuffled
import QueryGraph.Proofs.Hypergraph.Shuffled
import QueryGraph.Proofs.Planning.ConjunctOrder
import QueryGraph.Proofs.Passes.FinalForm
import QueryGraph.Proofs.Passes.Carried
import QueryGraph.Proofs.Equalities.Occurrences
import QueryGraph.Proofs.Equalities.Truth
import QueryGraph.Proofs.Planning.Search
import QueryGraph.Proofs.Equalities.Survival
import QueryGraph.Proofs.Planning.Findings
import QueryGraph.Proofs.Planning.Tracing
import QueryGraph.Proofs.Forest.Recording
import QueryGraph.Proofs.Pushdown.Growth
import QueryGraph.Proofs.Pushdown.Placement
import QueryGraph.Proofs.Equalities.Negations
import QueryGraph.Proofs.Pushdown.Arrivals
import QueryGraph.Proofs.Pushdown.LookupCopies
import QueryGraph.Proofs.Pushdown.Promotions
import QueryGraph.Proofs.Pushdown.Repetition
import QueryGraph.Proofs.Conflict.LeastSet
import QueryGraph.Proofs.Eligibility.Sources
import QueryGraph.Proofs.Passes.HashKeys
import QueryGraph.Proofs.Passes.Casts
import QueryGraph.Proofs.Passes.Caches
import QueryGraph.Proofs.Forest.FromLists
import QueryGraph.Proofs.Forest.Classification
import QueryGraph.Proofs.Hypergraph.InnerJoins
import QueryGraph.Proofs.Iterators
import QueryGraph.Proofs.BitSet.Iteration
import QueryGraph.Proofs.Forest.Walking
import QueryGraph.Proofs.Forest.Finishing
