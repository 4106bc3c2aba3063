import TagResolution.Cache
import TagResolution.Declaration
import TagResolution.Dictionary
import TagResolution.Draft
import TagResolution.Form
import TagResolution.Handle
import TagResolution.Marks
import TagResolution.Match
import TagResolution.Merge
import TagResolution.Nesting
import TagResolution.Proofs.Cycle
import TagResolution.Registry
import TagResolution.Resolver
import TagResolution.Roster
import TagResolution.Search
import TagResolution.Settings
import TagResolution.Sighting
import TagResolution.TagSet
import TagResolution.Text.Blank
import TagResolution.Text.Quoted
import TagResolution.Universe
import TagResolution.Universe.Fault
import TagResolution.Value
import TagResolution.Proofs.Validity
import TagResolution.Proofs.Construction
import TagResolution.Proofs.Rank
import TagResolution.Proofs.Trail
import TagResolution.Proofs.PlainSearch
import TagResolution.Proofs.Exhaustion
import TagResolution.Proofs.Hierarchy
import TagResolution.Proofs.Sighting
import TagResolution.Proofs.Resolution
import TagResolution.Proofs.Completeness
import TagResolution.Proofs.Anchoring
import TagResolution.Proofs.Showing
import TagResolution.Proofs.Coherence
import TagResolution.Proofs.Termination
import TagResolution.Proofs.Provenance
import TagResolution.Proofs.Recency
import TagResolution.Proofs.Requests
import TagResolution.Proofs.Gathering
import TagResolution.Proofs.Simulation
import TagResolution.Proofs.Caching
import TagResolution.Proofs.Inheritance
import TagResolution.Proofs.Candidates
import TagResolution.Proofs.Preorder
import TagResolution.Proofs.DirectMatches
import TagResolution.Proofs.Lineage
import TagResolution.Proofs.NestedConfiguration
import TagResolution.Proofs.MergedTags
import TagResolution.Proofs.Synthesis
import TagResolution.Proofs.Registration
import TagResolution.Proofs.Recording
import TagResolution.Proofs.Agreement
import TagResolution.Proofs.Locality
import TagResolution.Proofs.Containers
import TagResolution.Proofs.Exchange
import TagResolution.Proofs.Chains
import TagResolution.Proofs.Instances
import TagResolution.Proofs.Nearest
import TagResolution.Proofs.Merging
import TagResolution.Proofs.Completion
import TagResolution.Proofs.Capacity
import TagResolution.Proofs.ShadowedConfiguration
import TagResolution.Proofs.Refusal
import TagResolution.Proofs.Infrastructure
import TagResolution.Proofs.Ancestry
import TagResolution.Proofs.Exploration
import TagResolution.Proofs.Culprits
import TagResolution.Proofs.Numerals
import TagResolution.Proofs.Variables
