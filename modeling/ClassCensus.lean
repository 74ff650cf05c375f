import ClassCensus.Census.Attribute
import ClassCensus.Census.Call
import ClassCensus.Host.Store
import ClassCensus.Proofs.Aliases
import ClassCensus.Proofs.Counting
import ClassCensus.Proofs.Hierarchy
import ClassCensus.Settings.Reader
import ClassCensus.Snapshot.Export
import ClassCensus.Proofs.Observers
import ClassCensus.Proofs.Mirror
import ClassCensus.Proofs.Pedigree
import ClassCensus.Proofs.Survey
import ClassCensus.Proofs.Depth
import ClassCensus.Proofs.NameTable
import ClassCensus.Proofs.Deliveries
import ClassCensus.Proofs.Staleness
import ClassCensus.Proofs.Canonical
import ClassCensus.Proofs.Alike
import ClassCensus.Proofs.Account
import ClassCensus.Proofs.Exchange
import ClassCensus.Proofs.Permanence
import ClassCensus.Proofs.Refusals
import ClassCensus.Proofs.Closure
import ClassCensus.Proofs.Exits
import ClassCensus.Proofs.Settling
import ClassCensus.Proofs.Repetition
import ClassCensus.Proofs.Reversal
import ClassCensus.Proofs.Views
import ClassCensus.Proofs.Announcements
import ClassCensus.Proofs.Inheritance
import ClassCensus.Proofs.Rows
import ClassCensus.Proofs.Settings.Reading
import ClassCensus.Proofs.Export
import ClassCensus.Proofs.Multiset
import ClassCensus.Proofs.Tenure
