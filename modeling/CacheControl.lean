import CacheControl.Binding
import CacheControl.Keys
import CacheControl.Policy
import CacheControl.Loop
import CacheControl.Run
import CacheControl.Events
import CacheControl.Memory
import CacheControl.Reference
import CacheControl.History
import CacheControl.Provenance
import CacheControl.Atomicity
import CacheControl.Consent
import CacheControl.Separation
import CacheControl.Lowering
import CacheControl.Salts
import CacheControl.Isolation
import CacheControl.Meet
import CacheControl.Scopes
import CacheControl.Boundary
import CacheControl.Submissions
import CacheControl.Twins
import CacheControl.Forbidding
import CacheControl.Donors
import CacheControl.Repeats
import CacheControl.Vanishing
import CacheControl.Enforcement
import CacheControl.Hits
import CacheControl.Upstream
import CacheControl.Reordering
import CacheControl.Agreement
import CacheControl.Elements
import CacheControl.Steering
import CacheControl.Acceptance
import CacheControl.Narrowing
import CacheControl.Advice
import CacheControl.Forwarding
import CacheControl.Contents
import CacheControl.Ids
import CacheControl.Reporting
import CacheControl.Causes
import CacheControl.Rejections
import CacheControl.Namespaces
import CacheControl.Planning
import CacheControl.Totality
import CacheControl.Order
import CacheControl.Strictness
import CacheControl.Outcomes
import CacheControl.Lib.Workers
import CacheControl.Discovery
import CacheControl.Advertised
import CacheControl.Proxy
import CacheControl.Tenants
import CacheControl.Interchange
import CacheControl.Minimality
import CacheControl.Identities
import CacheControl.Ideal
